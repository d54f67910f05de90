import Xv6.ExecArguments

/-!
# The image of a new program

`exec` of `exec.c` for any file, any arguments and any failures of `kalloc`. It loads the
segments of the file into a new address space, makes a stack, and only then gives up the old
one.
-/

namespace Xv6.Vm

open OperationPrograms LittleEndianBlocks

variable {m : Machine} {deny : ℕ → Bool} {F : Panic → Prop} {s s' : Kernel} {l l' : List ℕ}
  {R I : Multiset ℕ} {root tf sz k : ℕ} {f : ℕ → ℕ} {page : ℕ → Bytes pgSize}
  {file : List UInt8}

/-! ### Segments -/

/-- The program headers of loadable segments, among the `k` from an offset on. -/
def segments (file : List UInt8) : (k off : ℕ) → List Proghdr
  | 0, _ => []
  | k + 1, off =>
    let ph := Proghdr.read (readi file off proghdrSize)
    let rest := segments file k ((off + proghdrSize) % 2 ^ 32)
    if ph.type = 1 then ph :: rest else rest

/-- The bytes of the file that a segment has come to lie at an address. -/
def Proghdr.Covers (ph : Proghdr) (a : ℕ) : Prop := ph.vaddr ≤ a ∧ a < ph.vaddr + ph.filesz

/-- The bytes of each segment are in memory, up to those that a later segment covers. -/
def Loaded (file : List UInt8) (byte : ℕ → UInt8) (phs : List Proghdr) : Prop :=
  ∀ earlier ph later, phs = earlier ++ ph :: later → ∀ i < ph.filesz,
    (∀ q ∈ later, ¬q.Covers (ph.vaddr + i)) →
      file[ph.off % 2 ^ 32 + i]? = some (byte (ph.vaddr + i))

theorem loaded_nil (byte : ℕ → UInt8) : Loaded file byte [] := by
  intro earlier ph later h
  simp at h

theorem loaded_cons {byte : ℕ → UInt8} {ph : Proghdr} {phs : List Proghdr}
    (hhead : ∀ i < ph.filesz, (∀ q ∈ phs, ¬q.Covers (ph.vaddr + i)) →
      file[ph.off % 2 ^ 32 + i]? = some (byte (ph.vaddr + i)))
    (htail : Loaded file byte phs) : Loaded file byte (ph :: phs) := by
  intro earlier q later h
  rcases List.cons_eq_append_iff.mp h with ⟨rfl, hq⟩ | ⟨earlier', rfl, hq⟩
  · obtain ⟨rfl, rfl⟩ := List.cons.inj hq
    exact hhead
  · exact htail earlier' q later hq

/-! ### Loading -/

theorem readi_full {off n : ℕ} (hoff : off < 2 ^ 32) (hpos : 0 < n) (hn : n ≤ pgSize)
    (h : (readi file off n).length = n) :
    off + n < 2 ^ 32 ∧ off + n ≤ file.length ∧ readi file off n = (file.drop off).take n := by
  unfold pgSize at hn
  rw [readi] at h ⊢
  by_cases hbad : file.length < off ∨ (off + n) % 2 ^ 32 < off
  · rw [if_pos hbad] at h
    exact absurd h (by simpa using hpos.ne)
  · rw [if_neg hbad, List.length_take, List.length_drop] at h
    rw [if_neg hbad]
    refine ⟨by omega, by omega, ?_⟩
    congr 1
    omega

/-- The loop of `loadseg` stores the bytes of the file, or it fails. -/
theorem loadFrom_exact {Q : Bool → Kernel → Prop} {va offset fsz i : ℕ}
    (h : Building m tf s l root sz f I) (hva : va % pgSize = 0) (hi : i % pgSize = 0)
    (hsz : va + fsz ≤ npages sz * pgSize) (hend : fsz ≤ i + k * pgSize)
    (hstart : k ≠ 0 → i + k * pgSize < fsz + pgSize) (hoff : i < fsz → offset + i < 2 ^ 32)
    (hfail : ∀ s', Moves m s l (I + userPages f 0 (npages sz)) s' l
      (I + userPages f 0 (npages sz)) → Building m tf s' l root sz f I → Q false s')
    (hok : ∀ s', Moves m s l (I + userPages f 0 (npages sz)) s' l
        (I + userPages f 0 (npages sz)) → Building m tf s' l root sz f I →
      (i < fsz → offset + fsz ≤ file.length) →
      s'.page = storeUser f s.page (va + i) ((file.drop (offset + i)).take (fsz - i)) →
      Q true s') :
    Ensures m deny F (loadFrom (root * pgSize) va file offset fsz k i) Q s := by
  induction k generalizing s i with
  | zero =>
    rw [loadFrom, ensures_pure]
    refine hok s (.refl h.heap) h (fun hlt => absurd hlt (by omega)) ?_
    rw [show fsz - i = 0 by omega, List.take_zero, storeUser]
  | succ k ih =>
    have hlt : i < fsz := by
      have := hstart (by omega)
      rw [Nat.add_mul] at this
      omega
    have hpage : (va + i) % pgSize = 0 := by
      rw [Nat.add_mod, hva, hi]
      rfl
    have hin : (va + i) / pgSize < npages sz := Nat.div_lt_of_lt_mul (by
      rw [Nat.mul_comm]
      omega)
    have hle := h.npages_le
    have hmod : (va + i) % 2 ^ 64 = va + i := by
      unfold pgSize at hin
      omega
    obtain ⟨haddr, hmem⟩ := h.userAddr hin
    have hpool : m.InPool (ppn (f ((va + i) / pgSize))) :=
      h.heap.pool _ (Multiset.mem_add.mpr (.inr (Multiset.mem_add.mpr (.inr hmem))))
    rw [loadFrom, ensures_bind]
    refine walkaddr_spec h.heap.mono h.table ?_
    rw [hmod, haddr, if_neg hpool.addr_ne_zero,
      ensures_bind, Nat.mod_eq_of_lt (hoff hlt)]
    generalize hn : (if fsz - i < pgSize then fsz - i else pgSize) = n
    have hnle : n ≤ pgSize ∧ n ≤ fsz - i ∧ 0 < n := by
      unfold pgSize at *
      split at hn <;> omega
    have hlast : n < pgSize → n = fsz - i := by split at hn <;> omega
    have hlen := length_readi_le file (offset + i) n
    refine put_page_spec hpool (hlen.trans hnle.1) ?_
    generalize hs₁ : s.write (ppn (f ((va + i) / pgSize))) _ _ = s₁
    obtain ⟨hmoves, hspace⟩ := h.of_moves (hs₁ ▸
      (h.heap.of_le (Multiset.le_add_left _ _)).write hmem _ _)
    have hpage₁ : s₁.page = storeUser f s.page (va + i) (readi file (offset + i) n) := by
      rw [storeUser_eq_putBytes f s.page (by rw [hpage]; omega), ← hs₁, hpage]
      rfl
    by_cases hshort : (readi file (offset + i) n).length = n
    · obtain ⟨hbound, hfile, hread⟩ := readi_full (hoff hlt) hnle.2.2 hnle.1 hshort
      have hk : (k + 1) * pgSize = k * pgSize + pgSize := by rw [Nat.add_mul, Nat.one_mul]
      rw [if_neg (by simpa using hshort)]
      rw [hk] at hend hstart
      refine ih ⟨hspace, h.user⟩ (by rw [Nat.add_mod, hi]; rfl) (by omega)
        (fun _ => by have := hstart (by omega); omega) (fun hnext => by omega)
        (fun s' hmove => hfail s' (hmoves.trans hmove))
        fun s' hmove hbuild hfile' hpage' => ?_
      refine hok s' (hmoves.trans hmove) hbuild (fun _ => ?_) ?_
      · by_cases hnext : i + pgSize < fsz
        · exact hfile' hnext
        · omega
      · rw [hpage', hpage₁]
        by_cases hnext : n < pgSize
        · rw [show fsz - (i + pgSize) = 0 by omega, List.take_zero, storeUser, hread, hlast hnext]
        · obtain rfl : n = pgSize := by omega
          rw [show fsz - i = pgSize + (fsz - (i + pgSize)) by omega, List.take_add, ← hread,
            storeUser_append, hshort, List.drop_drop]
          simp only [Nat.add_assoc]
    · rw [if_pos hshort, ensures_pure]
      exact hfail s₁ hmoves ⟨hspace, h.user⟩

theorem loadseg_exact {Q : Bool → Kernel → Prop} {va offset fsz : ℕ}
    (h : Building m tf s l root sz f I) (hva : va % pgSize = 0)
    (hsz : va + fsz ≤ npages sz * pgSize) (hoff : offset < 2 ^ 32)
    (hfail : ∀ s', Moves m s l (I + userPages f 0 (npages sz)) s' l
      (I + userPages f 0 (npages sz)) → Building m tf s' l root sz f I → Q false s')
    (hok : ∀ s', Moves m s l (I + userPages f 0 (npages sz)) s' l
        (I + userPages f 0 (npages sz)) → Building m tf s' l root sz f I →
      (∀ i < fsz, file[offset + i]? = some (userByte s'.page f (va + i))) →
      (∀ a < npages sz * pgSize, a < va ∨ va + fsz ≤ a →
        userByte s'.page f a = userByte s.page f a) → Q true s') :
    Ensures m deny F (loadseg (root * pgSize) va file offset fsz) Q s := by
  have hpages : fsz ≤ (fsz + (pgSize - 1)) / pgSize * pgSize ∧
      (fsz + (pgSize - 1)) / pgSize * pgSize < fsz + pgSize := by
    unfold pgSize
    omega
  refine loadFrom_exact h hva (Nat.zero_mod _) hsz (by omega) (fun _ => by omega)
    (fun _ => hoff) hfail fun s' hmove hbuild hfile hpage => ?_
  rw [Nat.sub_zero, Nat.add_zero, Nat.add_zero] at hpage
  have hlen : ((file.drop offset).take fsz).length = fsz := by
    by_cases hpos : 0 < fsz
    · have := hfile hpos
      rw [List.length_take, List.length_drop]
      omega
    · simp [show fsz = 0 by omega]
  refine hok s' hmove hbuild (fun i hi => ?_) fun a ha hout => ?_
  · have hstored := @userBytes_storeUser f ((file.drop offset).take fsz) s.page _ va h.unshared
      (hlen.symm ▸ hsz)
    rw [hlen, ← hpage] at hstored
    have hget : (userBytes s'.page f va fsz)[i]? = some (userByte s'.page f (va + i)) := by
      simp [userBytes, hi]
    rw [hstored, List.getElem?_take_of_lt hi, List.getElem?_drop] at hget
    exact hget
  · rw [hpage]
    exact userByte_storeUser_outside _ h.unshared (hlen.symm ▸ hsz) ha (hlen.symm ▸ hout)

theorem Building.uvmalloc {Q : ℕ → Kernel → Prop} {newsz xperm : ℕ}
    (h : Building m tf s l root sz f I) (hperm : xperm < 1024)
    (hfail : ∀ s' l' I', Moves m s l (I + userPages f 0 (npages sz)) s' l'
        (I' + userPages f 0 (npages sz)) → Building m tf s' l' root sz f I' → Q 0 s')
    (hok : ∀ sz' s' l' I' f', sz ≤ sz' → newsz ≤ sz' →
      Moves m s l (I + userPages f 0 (npages sz)) s' l' (I' + userPages f' 0 (npages sz')) →
      Building m tf s' l' root sz' f' I' →
      (∀ a < npages sz * pgSize, userByte s'.page f' a = userByte s.page f a) → Q sz' s') :
    Ensures m deny F (Vm.uvmalloc (root * pgSize) sz newsz xperm) Q s := by
  by_cases hle : sz ≤ newsz
  · refine h.uvmalloc_keeps hle hperm (fun s₁ l₁ I₁ hmove hspace _ _ => ?_)
      fun s₁ l₁ I₁ f₁ hmove hspace hext hsame => ?_
    · exact hfail s₁ l₁ I₁ hmove ⟨hspace, h.user⟩
    · refine hok newsz s₁ l₁ I₁ f₁ hle le_rfl hmove ⟨hspace, fun w hw => ?_⟩ fun a ha => ?_
      · by_cases hw' : w < npages sz
        · rw [hext.other w (by omega)]
          exact h.user w hw'
        · exact (hext.leaf w (by omega) (by omega)).user hperm
      · have hlow : a / pgSize < npages sz := Nat.div_lt_of_lt_mul (by rwa [Nat.mul_comm])
        rw [userByte, userByte, hext.other _ (by omega), (hsame _ hlow).page]
  · rw [Vm.uvmalloc, if_pos (by omega), ensures_pure]
    exact hok sz s l I f le_rfl (by omega) (.refl h.heap) h fun _ _ => rfl

theorem loadSegment_exact {Q : Bool × ℕ → Kernel → Prop} {next : ℕ → K (Bool × ℕ)}
    {ph : Proghdr} (h : Building m tf s l root sz f I) (hva : ph.vaddr % pgSize = 0)
    (hfilesz : ph.filesz ≤ ph.memsz) (hmemsz : ph.vaddr + ph.memsz < 2 ^ 64)
    (hfail : ∀ sz' s' l' f' I', Moves m s l (I + userPages f 0 (npages sz)) s' l'
      (I' + userPages f' 0 (npages sz')) → Building m tf s' l' root sz' f' I' → Q (false, sz') s')
    (hnext : ∀ sz' s' l' f' I', Moves m s l (I + userPages f 0 (npages sz)) s' l'
        (I' + userPages f' 0 (npages sz')) → Building m tf s' l' root sz' f' I' → sz ≤ sz' →
      ph.vaddr + ph.filesz ≤ npages sz' * pgSize →
      (∀ i < ph.filesz, file[ph.off % 2 ^ 32 + i]? = some (userByte s'.page f' (ph.vaddr + i))) →
      (∀ a < npages sz * pgSize, ¬ph.Covers a → userByte s'.page f' a = userByte s.page f a) →
      Ensures m deny F (next sz') Q s') :
    Ensures m deny F
      (do
        let sz1 ← uvmalloc (root * pgSize) sz ((ph.vaddr + ph.memsz) % 2 ^ 64) (flags2perm ph.flags)
        if sz1 = 0 then
          return (false, sz)
        else if ← loadseg (root * pgSize) ph.vaddr file (ph.off % 2 ^ 32) (ph.filesz % 2 ^ 32) then
          next sz1
        else
          return (false, sz1)) Q s := by
  rw [ensures_bind, Nat.mod_eq_of_lt hmemsz]
  refine h.uvmalloc (flags2perm_lt _) (fun s₁ l₁ I₁ hmove hbuild => ?_)
    fun sz₁ s₁ l₁ I₁ f₁ hsz hnew hmove hbuild hkept => ?_
  · rw [if_pos rfl, ensures_pure]
    exact hfail sz s₁ l₁ f I₁ hmove hbuild
  by_cases hzero : sz₁ = 0
  · rw [if_pos hzero, ensures_pure]
    obtain rfl : sz = sz₁ := by omega
    exact hfail sz s₁ l₁ f₁ I₁ hmove hbuild
  -- there is less memory than would be needed for the size to be cut off
  have hle := hbuild.npages_le
  have hin := le_npages sz₁
  have hsmall : ph.filesz % 2 ^ 32 = ph.filesz := by
    unfold pgSize at hin
    omega
  rw [if_neg hzero, ensures_bind, hsmall]
  refine loadseg_exact hbuild hva (by omega) (Nat.mod_lt _ (by decide))
    (fun s₂ hmove₂ hbuild₂ => ?_) fun s₂ hmove₂ hbuild₂ hbytes hkept₂ => ?_
  · rw [if_neg (by simp), ensures_pure]
    exact hfail sz₁ s₂ l₁ f₁ I₁ (hmove.trans hmove₂) hbuild₂
  · have hmono := Nat.mul_le_mul_right pgSize (npages_mono hsz)
    rw [if_pos rfl]
    refine hnext sz₁ s₂ l₁ f₁ I₁ (hmove.trans hmove₂) hbuild₂ hsz (by omega) hbytes
      fun a ha hcov => ?_
    rw [Proghdr.Covers] at hcov
    rw [hkept₂ a (by omega) (by omega), hkept a ha]

/-- After the loop of `exec` every segment is in memory as it is in the file. -/
theorem loadSegments_exact {Q : Bool × ℕ → Kernel → Prop} {off : ℕ}
    (h : Building m tf s l root sz f I)
    (hfail : ∀ sz' s' l' f' I', Moves m s l (I + userPages f 0 (npages sz)) s' l'
      (I' + userPages f' 0 (npages sz')) → Building m tf s' l' root sz' f' I' → Q (false, sz') s')
    (hok : ∀ sz' s' l' f' I', Moves m s l (I + userPages f 0 (npages sz)) s' l'
        (I' + userPages f' 0 (npages sz')) → Building m tf s' l' root sz' f' I' → sz ≤ sz' →
      Loaded file (userByte s'.page f') (segments file k off) →
      (∀ ph ∈ segments file k off, ph.vaddr + ph.filesz ≤ npages sz' * pgSize) →
      (∀ a < npages sz * pgSize, (∀ ph ∈ segments file k off, ¬ph.Covers a) →
        userByte s'.page f' a = userByte s.page f a) → Q (true, sz') s') :
    Ensures m deny F (loadSegments (root * pgSize) file k off sz) Q s := by
  induction k generalizing s l sz f I off with
  | zero =>
    rw [loadSegments, ensures_pure]
    exact hok sz s l f I (.refl h.heap) h le_rfl (loaded_nil _) nofun fun _ _ _ => rfl
  | succ k ih =>
    have hstop : Ensures m deny F (pure (false, sz)) Q s :=
      (ensures_pure ..).mpr (hfail sz s l f I (.refl h.heap) h)
    rw [loadSegments]
    rw [segments] at hok
    generalize hph : Proghdr.read (readi file off proghdrSize) = ph at hok ⊢
    generalize hphs : segments file k ((off + proghdrSize) % 2 ^ 32) = phs at hok
    have hvaddr : ph.vaddr < 2 ^ 64 := hph ▸ numAt_lt _ 16 8
    have hmemsz : ph.memsz < 2 ^ 64 := hph ▸ numAt_lt _ 40 8
    by_cases htype : ph.type = 1
    · rw [if_pos htype] at hok
      split_ifs with h₁ h₂ h₃ h₄ h₅
      · exact hstop
      · exact absurd htype h₂
      · exact hstop
      · exact hstop
      · exact hstop
      refine loadSegment_exact h (by omega) (by omega) (by omega) hfail
        fun sz₁ s₁ l₁ f₁ I₁ hmove hbuild hsz hin hbytes hkept => ?_
      refine ih hbuild
        (fun sz' s' l' f' I' hmove' => hfail sz' s' l' f' I' (hmove.trans hmove'))
        fun sz' s' l' f' I' hmove' hbuild' hsz' hloaded hin' hkept' => ?_
      rw [hphs] at hloaded hin' hkept'
      have hmono := Nat.mul_le_mul_right pgSize (npages_mono hsz)
      have hmono' := Nat.mul_le_mul_right pgSize (npages_mono hsz')
      refine hok sz' s' l' f' I' (hmove.trans hmove') hbuild' (hsz.trans hsz')
        (loaded_cons (fun i hi hlater => ?_) hloaded) (fun q hq => ?_) fun a ha hcov => ?_
      · rw [hkept' _ (by omega) hlater]
        exact hbytes i hi
      · rcases List.mem_cons.mp hq with rfl | hq
        · omega
        · exact hin' q hq
      · rw [hkept' a (by omega) fun q hq => hcov q (List.mem_cons_of_mem _ hq),
          hkept a ha (hcov ph List.mem_cons_self)]
    · rw [if_neg htype] at hok
      split_ifs with h₁
      · exact hstop
      · refine ih h hfail fun sz' s' l' f' I' hmove hbuild hsz hloaded hin hkept => ?_
        rw [hphs] at hloaded hin hkept
        exact hok sz' s' l' f' I' hmove hbuild hsz hloaded hin hkept

/-! ### The point of no return -/

def newImage (path : List UInt8) (pagetable sz : ℕ) (p : Proc) : Proc :=
  { p with name := safestrcpy (lastElement path), pagetable, sz }

/-- The registers that `exec` sets in the trapframe: the program counter, the stack pointer,
and `a1`. -/
structure Registers (s : Kernel) (tf entry stack : ℕ) : Prop where
  epc : getField (s.page tf) 24 8 = entry
  sp : getField (s.page tf) 48 8 = stack
  a1 : getField (s.page tf) 120 8 = stack

theorem Registers.frame {entry sp : ℕ} (h : Registers s tf entry sp) (hsame : SamePage s s' tf) :
    Registers s' tf entry sp := by
  refine ⟨?_, ?_, ?_⟩
  · rw [hsame.page, h.epc]
  · rw [hsame.page, h.sp]
  · rw [hsame.page, h.a1]

variable {path : List UInt8}

/-- Behind the point of no return, the old address space is given back. -/
theorem execCommit_exact {Q : Unit → Kernel → Prop} {i : Pid} {entry pagetable newsz sp : ℕ}
    (hlive : Live m s (s.tables.proc i) tf root f I)
    (hheap : Heap m s l ({tf} + (I + userPages f 0 (npages (s.tables.proc i).sz))))
    (hentry : entry < 2 ^ 64) (hsp : sp < 2 ^ 64)
    (hQ : ∀ s' l',
      Alters m s l ({tf} + (I + userPages f 0 (npages (s.tables.proc i).sz))) s' l' {tf} →
      s'.tables = (s.setProc i (newImage path pagetable newsz)).tables →
      Registers s' tf entry sp → Q () s') :
    Ensures m deny F (execCommit i path entry pagetable newsz sp) Q s := by
  rw [execCommit, ensures_bind, ensures_getProc, hlive.trapframe, hlive.pagetable, ensures_bind]
  refine store_field hheap.mono (by decide) (by decide) fun s₁ hmove₁ hpage₁ _ => ?_
  rw [ensures_bind, ensures_setProc, ensures_bind]
  generalize hs₂ : s₁.setProc i _ = s₂
  have halter : Alters m s l {tf} s₂ l {tf} := hs₂ ▸ hmove₁.alters.trans (hmove₁.heap.alters _)
  have hpage₂ : s₂.page = s₁.page := by
    rw [← hs₂]
    rfl
  refine store_field halter.heap (by decide) (by decide) fun s₃ hmove₃ hpage₃ _ => ?_
  rw [ensures_bind]
  refine store_field hmove₃.heap (by decide) (by decide) fun s₄ hmove₄ hpage₄ _ => ?_
  have hmoves := halter.trans (hmove₃.trans hmove₄).alters
  have hregs : Registers s₄ tf entry sp := by
    rw [hpage₂, hpage₁] at hpage₃
    rw [hpage₃] at hpage₄
    refine ⟨?_, ?_, ?_⟩
    · rw [hpage₄, getField_putField_disjoint _ _ _ _ (by omega),
        getField_putField_self _ _ _ _ (by decide)]
      exact Nat.mod_eq_of_lt hentry
    · rw [hpage₄, getField_putField_self _ _ _ _ (by decide)]
      exact Nat.mod_eq_of_lt hsp
    · rw [hpage₄, getField_putField_disjoint _ _ _ _ (by omega),
        getField_putField_disjoint _ _ _ _ (by omega), getField_putField_self _ _ _ _ (by decide)]
      exact Nat.mod_eq_of_lt hsp
  have htables : s₄.tables = (s.setProc i (newImage path pagetable newsz)).tables := by
    rw [hmove₄.tables, hmove₃.tables, ← hs₂, Kernel.setProc, hmove₁.tables]
    rfl
  have hadd := hmoves.add hheap
  have hheap₄ := hadd.heap
  rw [add_comm] at hheap₄
  refine procFreepagetable_spec hheap₄.mono ?_ hlive.shape fun s₅ l₅ hmove₅ => ?_
  · exact hlive.table.frame fun q hq => hmoves.keeps hheap q (Multiset.mem_add.mpr (.inl hq))
  · have hmove' := hmove₅.add hheap₄
    rw [zero_add, add_comm] at hmove'
    refine hQ s₅ l₅ (hadd.trans hmove'.alters) (hmove₅.tables.trans htables) ?_
    exact hregs.frame (hmove₅.keeps hheap₄ tf (by simp))

/-! ### `exec` -/

theorem Loaded.congr {byte byte' : ℕ → UInt8} {phs : List Proghdr} {n : ℕ}
    (h : Loaded file byte phs) (hin : ∀ ph ∈ phs, ph.vaddr + ph.filesz ≤ n)
    (hsame : ∀ a < n, byte' a = byte a) : Loaded file byte' phs := by
  intro earlier ph later hphs i hi hlater
  have hle := hin ph (by simp [hphs])
  rw [hsame _ (by omega)]
  exact h earlier ph later hphs i hi hlater

def elfhdr (file : List UInt8) : Elfhdr := Elfhdr.read (readi file 0 elfhdrSize)

/-- The loadable segments of a file, in the order of their headers. -/
def imageSegments (file : List UInt8) : List Proghdr :=
  segments file (elfhdr file).phnum ((elfhdr file).phoff % 2 ^ 32)

/-- Process `i` runs a new program: the address space is described by `f'`, and the stack
pointer is `sp`. -/
structure Executed (m : Machine) (s : Kernel) (i : Pid) (tf : ℕ) (R : Multiset ℕ)
    (path file : List UInt8) (strs : List (List UInt8)) (s' : Kernel) (l' : List ℕ)
    (root' sz' sp : ℕ) (f' : ℕ → ℕ) (I' : Multiset ℕ) : Prop where
  tables : s'.tables = (s.setProc i (newImage path (root' * pgSize) sz')).tables
  live : Live m s' (s'.tables.proc i) tf root' f' I'
  heap : Heap m s' l' ({tf} + (I' + userPages f' 0 (npages sz')) + R)
  others : ∀ q ∈ R, SamePage s s' q
  registers : Registers s' tf (elfhdr file).entry sp
  segments : Loaded file (userByte s'.page f') (imageSegments file)
  stack : (userStack + 1) * pgSize ≤ sz' ∧ sz' % pgSize = 0
  guard : f' (sz' / pgSize - (userStack + 1)) &&& pteU = 0
  arguments : ∃ ptrs, Arguments s'.page f' (sz' - userStack * pgSize) sz' sp strs ptrs

theorem execCommit_executed {Q : Unit → Kernel → Prop} {s₁ : Kernel} {l₁ : List ℕ} {i : Pid}
    {strs : List (List UInt8)} {ptrs : List ℕ} {root₁ sz₁ sp : ℕ} {f₁ : ℕ → ℕ} {I₁ : Multiset ℕ}
    (hlive : Live m s (s.tables.proc i) tf root f I)
    (hheap : Heap m s l ({tf} + (I + userPages f 0 (npages (s.tables.proc i).sz)) + R))
    (hmove : Moves m s l 0 s₁ l₁ (I₁ + userPages f₁ 0 (npages sz₁)))
    (hspace : Space m tf s₁ l₁ root₁ sz₁ f₁ I₁)
    (hloaded : Loaded file (userByte s₁.page f₁) (imageSegments file))
    (hin : ∀ ph ∈ imageSegments file, ph.vaddr + ph.filesz ≤ sz₁)
    (hstack : (userStack + 1) * pgSize ≤ sz₁ ∧ sz₁ % pgSize = 0)
    (hguard : f₁ (sz₁ / pgSize - (userStack + 1)) &&& pteU = 0)
    (harguments : Arguments s₁.page f₁ (sz₁ - userStack * pgSize) sz₁ sp strs ptrs)
    (hQ : ∀ s' l', Executed m s i tf R path file strs s' l' root₁ sz₁ sp f₁ I₁ → Q () s') :
    Ensures m deny F (execCommit i path (elfhdr file).entry (root₁ * pgSize) sz₁ sp) Q s₁ := by
  generalize hA : {tf} + (I + userPages f 0 (npages (s.tables.proc i).sz)) = A at hheap
  generalize hN : I₁ + userPages f₁ 0 (npages sz₁) = N at hmove
  have hsame := hmove.keeps_beside hheap
  have hheap₁ := (hmove.beside hheap).heap
  have hlive₁ : Live m s₁ (s₁.tables.proc i) tf root f I := by
    rw [hmove.tables]
    refine ⟨hlive.trapframe, hlive.pagetable, hlive.table.frame fun q hq => hsame q ?_, hlive.shape⟩
    simp [← hA, hq]
  rw [show N + (A + R) = A + (R + N) by ac_rfl] at hheap₁
  have hle := le_npages sz₁
  have hmax := hspace.npages_le
  have hsp : sp < 2 ^ 64 := by
    obtain ⟨-, htop⟩ := harguments.inside _ List.mem_cons_self
    dsimp only at htop
    unfold pgSize at hle
    omega
  refine execCommit_exact hlive₁ (by rw [hmove.tables, hA]; exact hheap₁.mono) (numAt_lt _ 24 8) hsp
    fun s₂ l₂ halter htables hregs => ?_
  rw [hmove.tables, hA] at halter
  have hkeeps := halter.keeps hheap₁
  have htables' : s₂.tables = (s.setProc i (newImage path (root₁ * pgSize) sz₁)).tables := by
    rw [htables, Kernel.setProc, Kernel.setProc, hmove.tables]
  have hproc : s₂.tables.proc i = newImage path (root₁ * pgSize) sz₁ (s.tables.proc i) := by
    rw [htables']
    exact Function.update_self ..
  -- the new address space is not touched
  have hbytes (a : ℕ) (ha : a < sz₁) : userByte s₂.page f₁ a = userByte s₁.page f₁ a := by
    have hlow : a / pgSize < npages sz₁ := Nat.div_lt_of_lt_mul (by
      rw [Nat.mul_comm]
      omega)
    have hmem : ppn (f₁ (a / pgSize)) ∈ userPages f₁ 0 (npages sz₁) :=
      mem_userPages (Nat.zero_le _) (by omega)
    rw [userByte, userByte, (hkeeps _ (by simp [← hN, hmem])).page]
  have hheap₂ := (halter.add hheap₁).heap
  rw [show {tf} + (R + N) = {tf} + N + R by ac_rfl, ← hN] at hheap₂
  refine hQ s₂ l₂ ⟨htables', ?_, hheap₂, fun q hq => ?_, hregs, hloaded.congr hin hbytes, hstack,
    hguard, ptrs, harguments.congr fun a _ ha => hbytes a ha⟩
  · rw [hproc]
    refine ⟨hlive.trapframe, rfl, hspace.table.frame fun q hq => hkeeps q ?_, hspace.shape⟩
    simp [← hN, hq]
  · exact (hsame q (by simp [hq])).trans (hkeeps q (by simp [hq]))

/-- `exec` fails and leaves the process as it was, or the process has the new image. -/
theorem exec_exact {Q : ℤ → Kernel → Prop} {i : Pid} {args : List (ℕ × List UInt8)}
    {file : Option (List UInt8)} (hlive : Live m s (s.tables.proc i) tf root f I)
    (hheap : Heap m s l ({tf} + (I + userPages f 0 (npages (s.tables.proc i).sz)) + R))
    (hargs : ∀ a ∈ args, a.1 ∈ R ∧ ArgAt s a.1 a.2) (hlen : args.length < maxArg)
    (hfail : ∀ s' l', Moves m s l 0 s' l' 0 → Q (-1) s')
    (hok : ∀ bs s' l' root' sz' sp f' I', file = some bs →
      Executed m s i tf R path bs (args.map (·.2)) s' l' root' sz' sp f' I' → Q args.length s') :
    Ensures m deny F (exec m i path (args.map (·.1 * pgSize)) file) Q s := by
  generalize hA : {tf} + (I + userPages f 0 (npages (s.tables.proc i).sz)) + R = A at hheap
  have hgiveUp : Ensures m deny F (pure (-1)) Q s :=
    (ensures_pure ..).mpr (hfail s l (.refl hheap.zero))
  -- an address space that was not finished is given back
  have hback {s₁ : Kernel} {l₁ : List ℕ} {f₁ : ℕ → ℕ} {I₁ : Multiset ℕ} {root₁ sz₁ : ℕ}
      (hmove : Moves m s l 0 s₁ l₁ (I₁ + userPages f₁ 0 (npages sz₁)))
      (hspace : Space m tf s₁ l₁ root₁ sz₁ f₁ I₁) :
      Ensures m deny F (procFreepagetable (root₁ * pgSize) sz₁)
        (fun _ => Ensures m deny F (pure (-1)) Q) s₁ :=
    procFreepagetable_spec hspace.heap hspace.table hspace.shape fun s₂ l₂ hmove₂ =>
      (ensures_pure ..).mpr (hfail s₂ l₂ (hmove.trans hmove₂))
  cases file with
  | none =>
    rw [exec]
    exact hgiveUp
  | some file =>
    rw [exec]
    split_ifs with h₁ h₂
    · exact hgiveUp
    · exact hgiveUp
    have htf : m.InPool tf := hheap.pool tf (by simp [← hA])
    have htf' : tf < 2 ^ 51 := (Machine.inPool_ram htf).2.trans (by decide)
    rw [ensures_bind, ensures_getProc, hlive.trapframe, ensures_bind]
    refine procPagetable_spec hheap.zero htf' (fun s₁ l₁ hmove => ?_)
      fun root₁ s₁ l₁ f₁ I₁ hmove₁ htable hshape => ?_
    · rw [if_pos rfl, ensures_pure]
      exact hfail s₁ l₁ hmove
    have hroot : m.InPool root₁ := hmove₁.heap.pool root₁
      (Multiset.mem_add.mpr (.inr htable.root_mem))
    have hempty : I₁ + userPages f₁ 0 (npages 0) = I₁ := by
      rw [show npages 0 = 0 from rfl, userPages_zero, add_zero]
    have hbuild₁ : Building m tf s₁ l₁ root₁ 0 f₁ I₁ := by
      refine ⟨⟨?_, htable, hshape⟩, fun w hw => absurd hw (by simp [npages, pgSize])⟩
      rw [hempty]
      exact hmove₁.heap
    rw [if_neg hroot.addr_ne_zero, ensures_bind, execLoad]
    refine loadSegments_exact hbuild₁ (fun sz₂ s₂ l₂ f₂ I₂ hmove₂ hbuild₂ => ?_)
      fun sz₂ s₂ l₂ f₂ I₂ hmove₂ hbuild₂ _ hloaded hin _ => ?_
    · rw [hempty] at hmove₂
      dsimp only
      rw [if_pos (by rfl), ensures_bind]
      exact hback (hmove₁.trans hmove₂) hbuild₂.toSpace
    rw [hempty] at hmove₂
    have hmoves₂ := hmove₁.trans hmove₂
    have hheap₂ := (hmoves₂.beside hheap).heap
    dsimp only
    rw [if_neg (by simp), ensures_bind]
    refine execStack_exact hbuild₂.toSpace hheap₂ (fun b hb => ?_) hlen.le
      (fun s₃ l₃ I₃ hmove₃ hspace₃ _ => ?_) fun ok sp s₃ l₃ f₃ I₃ hmove₃ hspace₃ hstacked => ?_
    · obtain ⟨hbR, hb'⟩ := hargs b hb
      have hbA : b.1 ∈ A := hA ▸ Multiset.mem_add.mpr (.inr hbR)
      exact ⟨hbA, hb'.frame (hmoves₂.keeps_beside hheap b.1 hbA)⟩
    · dsimp only
      rw [if_pos (by rfl), ensures_bind]
      refine hback ?_ hspace₃
      rw [npages_page]
      exact hmoves₂.trans hmove₃
    have hmoves₃ := hmoves₂.trans hmove₃
    dsimp only
    cases ok with
    | false =>
      rw [if_pos (by rfl), ensures_bind]
      refine hback ?_ hspace₃
      rw [npages_page]
      exact hmoves₃
    | true =>
      rw [if_neg (by simp), ensures_bind, List.length_map]
      obtain ⟨ptrs, harguments⟩ := hstacked.arguments rfl
      have hbase : (npages sz₂ + 2) * pgSize - userStack * pgSize = (npages sz₂ + 1) * pgSize := by
        rw [← Nat.sub_mul]
        rfl
      have hmono : npages sz₂ * pgSize ≤ (npages sz₂ + 2) * pgSize :=
        Nat.mul_le_mul_right _ (by omega)
      rw [← npages_page (npages sz₂ + 2)] at hmoves₃
      rw [← hbase] at harguments
      refine execCommit_executed hlive (hA.symm ▸ hheap) hmoves₃ hspace₃
        (hloaded.congr hin (hstacked.kept rfl)) (fun ph hph => (hin ph hph).trans hmono)
        ⟨Nat.mul_le_mul_right _ (by unfold userStack; omega), Nat.mul_mod_left _ _⟩ ?_ harguments
        fun s₄ l₄ hexecuted => (ensures_pure ..).mpr (hok file s₄ l₄ _ _ _ _ _ rfl hexecuted)
      rw [page_div]
      exact hstacked.guard

/-- The tables and the pages `A` in use are as they were, and so are the free pages up to their
order. -/
structure Untouched (m : Machine) (s : Kernel) (l : List ℕ) (A : Multiset ℕ) (s' : Kernel)
    (l' : List ℕ) : Prop where
  tables : s'.tables = s.tables
  free : l'.Perm l
  heap : Heap m s' l' A
  pages : ∀ q ∈ A, SamePage s s' q

theorem Moves.untouched {A : Multiset ℕ} (h : Moves m s l 0 s' l' 0) (hheap : Heap m s l A) :
    Untouched m s l A s' l' := by
  exact ⟨h.tables, Multiset.coe_eq_coe.mp (by simpa using h.pages), (h.spared hheap).heap,
    h.keeps_beside hheap⟩

/-- `exec` does all or nothing. Whatever the file and the failures of `kalloc`, it returns
without a panic. If it returns -1, then the tables, with the page table, the size and the name
of the process, and all pages in use, with its trapframe and its memory, are as before, and
what it took from the list of free pages is back there. Otherwise it has replaced the image of
the process: the bytes of the segments are in its memory, and the page below the stack is not
open to the user. -/
theorem exec_all_or_nothing {i : Pid} {args : List (ℕ × List UInt8)}
    (hlive : Live m s (s.tables.proc i) tf root f I)
    (hheap : Heap m s l ({tf} + (I + userPages f 0 (npages (s.tables.proc i).sz)) + R))
    (hargs : ∀ a ∈ args, a.1 ∈ R ∧ ArgAt s a.1 a.2) (hlen : args.length < maxArg)
    (path : List UInt8) (file : Option (List UInt8)) :
    ∃ r s' l',
      Prog.run (perform m deny) (exec m i path (args.map (·.1 * pgSize)) file) s = .ok (r, s') ∧
      (r = -1 ∧ Untouched m s l
          ({tf} + (I + userPages f 0 (npages (s.tables.proc i).sz)) + R) s' l' ∨
        r = args.length ∧ ∃ bs root' sz' sp f' I', file = some bs ∧
          Executed m s i tf R path bs (args.map (·.2)) s' l' root' sz' sp f' I') := by
  have hspec : Ensures m deny (fun _ => False) (exec m i path (args.map (·.1 * pgSize)) file)
      (fun r s' => ∃ l', r = -1 ∧ Untouched m s l
          ({tf} + (I + userPages f 0 (npages (s.tables.proc i).sz)) + R) s' l' ∨
        r = args.length ∧ ∃ bs root' sz' sp f' I', file = some bs ∧
          Executed m s i tf R path bs (args.map (·.2)) s' l' root' sz' sp f' I') s := by
    refine exec_exact hlive hheap hargs hlen (fun s' l' hmove => ?_)
      fun bs s' l' root' sz' sp f' I' hfile hexecuted => ?_
    · exact ⟨l', .inl ⟨rfl, hmove.untouched hheap⟩⟩
    · exact ⟨l', .inr ⟨rfl, bs, root', sz', sp, f', I', hfile, hexecuted⟩⟩
  obtain ⟨r, s', hrun, l', hpost⟩ := hspec.run
  exact ⟨r, s', l', hrun, hpost⟩

theorem firstProcess_owns :
    Heap smallKernel firstProcess firstFree ({0x87ffa} + (firstPages +
      userPages firstMap 0 (npages (firstProcess.tables.proc 0).sz)) + {0x87ff8}) := by
  have hpages : {0x87ffa} + (firstPages +
      userPages firstMap 0 (npages (firstProcess.tables.proc 0).sz)) + {0x87ff8} =
      firstPages + userPages firstMap 0 1 + {0x87ffa, 0x87ff8} := by
    rw [add_comm {0x87ffa}, add_assoc]
    rfl
  rw [hpages]
  exact firstProcess_heap

theorem firstProcess_arg : ArgAt firstProcess 0x87ff8 [] where
  short := by decide
  bytes := by decide
  nonzero := by decide
  known i _ := rfl

theorem firstProcess_args : ∀ a ∈ [((0x87ff8 : ℕ), ([] : List UInt8))],
    a.1 ∈ ({0x87ff8} : Multiset ℕ) ∧ ArgAt firstProcess a.1 a.2 := by
  intro a ha
  rw [List.mem_singleton.mp ha]
  exact ⟨by decide, firstProcess_arg⟩

def smallElf : List UInt8 :=
  bytesOf elfMagic 4 ++ List.replicate 28 0 ++ bytesOf 64 8 ++ List.replicate 16 0 ++ bytesOf 1 2 ++
    List.replicate 6 0 ++
    -- the program header, with the offset, the address and the sizes of the segment
    bytesOf 1 4 ++ bytesOf 5 4 ++ bytesOf 120 8 ++ bytesOf 0 16 ++ bytesOf 4 8 ++ bytesOf 4 8 ++
    bytesOf pgSize 8 ++ [0x13, 0, 0, 0]

/-- If the parts of `exec` before the point of no return succeed, then it returns the number of
arguments. -/
theorem exec_of_parts {i : Pid} {path bs : List UInt8} {argv : List ℕ} {r : ℤ} {s₁ s₂ s₃ : Kernel}
    {pagetable sz sz' sp : ℕ} (hlen : (readi bs 0 elfhdrSize).length = elfhdrSize)
    (hmagic : (elfhdr bs).magic = elfMagic)
    (hpagetable : Prog.run (perform m deny) (procPagetable m (s.tables.proc i).trapframe) s =
      .ok (pagetable, s₁)) (hne : pagetable ≠ 0)
    (hload : Prog.run (perform m deny) (execLoad pagetable bs (elfhdr bs)) s₁ =
      .ok ((true, sz), s₂))
    (hstack : Prog.run (perform m deny) (execStack pagetable sz argv) s₂ =
      .ok ((true, sz', sp), s₃))
    (hrun : Prog.run (perform m deny) (exec m i path argv (some bs)) s = .ok (r, s')) :
    r = argv.length := by
  have hproc : Prog.run (perform m deny) (getProc i) s = .ok (s.tables.proc i, s) := rfl
  rw [exec, if_neg (not_not_intro hlen)] at hrun
  dsimp only at hrun
  rw [← elfhdr, if_neg (not_not_intro hmagic), Prog.run_bind_eq hproc, Prog.run_bind_eq hpagetable,
    if_neg hne, Prog.run_bind_eq hload, if_neg (by simp), Prog.run_bind_eq hstack,
    if_neg (by simp), Prog.run_bind] at hrun
  split at hrun
  · exact (Prod.mk.inj (Except.ok.inj hrun)).1.symm
  · exact absurd hrun (by simp)

/-- All parts of `exec` before the point of no return succeed for the small program. -/
def loadsSmallElf (argv : List ℕ) (s : Kernel) : Bool :=
  (Prog.run (perform smallKernel fun _ => false)
    (procPagetable smallKernel (s.tables.proc 0).trapframe) s).toOption.any fun r₁ =>
      r₁.1 ≠ 0 && (Prog.run (perform smallKernel fun _ => false)
        (execLoad r₁.1 smallElf (elfhdr smallElf)) r₁.2).toOption.any fun r₂ =>
          r₂.1.1 && (Prog.run (perform smallKernel fun _ => false)
            (execStack r₁.1 r₂.1.2 argv) r₂.2).toOption.any fun r₃ => r₃.1.1

theorem exec_smallElf {argv : List ℕ} {r : ℤ} (hloads : loadsSmallElf argv s = true)
    (hrun : Prog.run (perform smallKernel fun _ => false)
      (exec smallKernel 0 path argv (some smallElf)) s = .ok (r, s')) :
    r = argv.length := by
  obtain ⟨⟨pagetable, s₁⟩, hpagetable, hloads⟩ := exists_ok_of_any hloads
  obtain ⟨hne, hloads⟩ := Bool.and_eq_true_iff.mp hloads
  obtain ⟨⟨⟨ok, sz⟩, s₂⟩, hload, hloads⟩ := exists_ok_of_any hloads
  obtain ⟨rfl, hloads⟩ := Bool.and_eq_true_iff.mp hloads
  obtain ⟨⟨⟨ok, sz', sp⟩, s₃⟩, hstack, rfl⟩ := exists_ok_of_any hloads
  exact exec_of_parts (by decide +kernel) (by decide +kernel) hpagetable
    (of_decide_eq_true hne) hload hstack hrun

/-- The first process executes a program with a segment. It goes on as before if there is no page
for it. -/
theorem exec_all_or_nothing_smallElf :
    (∃ s' l' root' sz' sp f' I', Prog.run (perform smallKernel fun _ => false)
        (exec smallKernel 0 [0x2f, 0x61] [0x87ff8 * pgSize] (some smallElf)) firstProcess =
          .ok (1, s') ∧
      Executed smallKernel firstProcess 0 0x87ffa {0x87ff8} [0x2f, 0x61] smallElf [[]] s' l' root'
        sz' sp f' I' ∧ (imageSegments smallElf).length = 1) ∧
    ∃ s' l', Prog.run (perform smallKernel fun _ => true)
        (exec smallKernel 0 [0x2f, 0x61] [0x87ff8 * pgSize] (some smallElf)) firstProcess =
          .ok (-1, s') ∧
      Untouched smallKernel firstProcess firstFree ({0x87ffa} + (firstPages +
        userPages firstMap 0 (npages (firstProcess.tables.proc 0).sz)) + {0x87ff8}) s' l' := by
  have hloads : loadsSmallElf [0x87ff8 * pgSize] firstProcess = true := by decide +kernel
  have hfail : (Prog.run (perform smallKernel fun _ => true)
      (exec smallKernel 0 [0x2f, 0x61] [0x87ff8 * pgSize] (some smallElf))
        firstProcess).map (·.1) = .ok (-1) := by decide +kernel
  constructor
  · obtain ⟨r, s', l', hrun, hpost⟩ := @exec_all_or_nothing smallKernel (fun _ => false)
      firstProcess firstFree {0x87ff8} firstPages 0x87fff 0x87ffa firstMap 0 [(0x87ff8, [])]
      initproc_live firstProcess_owns firstProcess_args (by decide) [0x2f, 0x61] (some smallElf)
    obtain rfl : r = 1 := exec_smallElf hloads hrun
    obtain ⟨hr, -⟩ | ⟨-, bs, root', sz', sp, f', I', hbs, hpost⟩ := hpost
    · exact absurd hr (by decide)
    · obtain rfl := Option.some_inj.mp hbs
      exact ⟨s', l', root', sz', sp, f', I', hrun, hpost, by decide +kernel⟩
  · obtain ⟨r, s', l', hrun, hpost⟩ := @exec_all_or_nothing smallKernel (fun _ => true)
      firstProcess firstFree {0x87ff8} firstPages 0x87fff 0x87ffa firstMap 0 [(0x87ff8, [])]
      initproc_live firstProcess_owns firstProcess_args (by decide) [0x2f, 0x61] (some smallElf)
    rw [List.map_singleton] at hrun
    rw [hrun] at hfail
    obtain rfl : r = -1 := Except.ok.inj hfail
    obtain ⟨-, hpost⟩ | ⟨hr, -⟩ := hpost
    · exact ⟨s', l', hrun, hpost⟩
    · exact absurd hr (by decide)

/-! ### The arguments of `exec` -/

/-- The run of the part of `exec` that makes the stack, with the free pages `l`. If there is no
memory for it, then the size of the memory is what it was. -/
def StackBuilt (m : Machine) (deny : ℕ → Bool) (s : Kernel) (l : List ℕ) (tf root sz : ℕ)
    (f : ℕ → ℕ) (args : List (ℕ × List UInt8)) : Prop :=
  ∃ ok sz' sp s',
    Prog.run (perform m deny) (execStack (root * pgSize) sz (args.map (·.1 * pgSize))) s =
      .ok ((ok, sz', sp), s') ∧
    (ok = false ∧ sz' = npages sz * pgSize ∧ Refused deny s l s' ∨
      sz' = (npages sz + userStack + 1) * pgSize ∧
      ∃ l' f' I', Space m tf s' l' root sz' f' I' ∧ Stacked s s' f f' sz (args.map (·.2)) ok sp)

theorem stackBuilt {args : List (ℕ × List UInt8)} (h : Space m tf s l root sz f I)
    (hheap : Heap m s l (I + userPages f 0 (npages sz) + R))
    (hargs : ∀ a ∈ args, a.1 ∈ R ∧ ArgAt s a.1 a.2) (hlen : args.length < maxArg) :
    StackBuilt m deny s l tf root sz f args := by
  have hspec : Ensures m deny (fun _ => False)
      (execStack (root * pgSize) sz (args.map (·.1 * pgSize)))
      (fun r s' => r.1 = false ∧ r.2.1 = npages sz * pgSize ∧ Refused deny s l s' ∨
        r.2.1 = (npages sz + userStack + 1) * pgSize ∧
        ∃ l' f' I', Space m tf s' l' root r.2.1 f' I' ∧
          Stacked s s' f f' sz (args.map (·.2)) r.1 r.2.2) s := by
    refine execStack_exact h hheap hargs hlen.le
      (fun s' l' I' _ _ hrefused => .inl ⟨rfl, rfl, hrefused⟩)
      fun ok sp s' l' f' I' _ hspace hstacked => .inr ⟨rfl, l', f', I', hspace, hstacked⟩
  obtain ⟨⟨ok, sz', sp⟩, s', hrun, hpost⟩ := hspec.run
  exact ⟨ok, sz', sp, s', hrun, hpost⟩

theorem Live.userTable {p : Proc} (h : Live m s p tf root f I)
    (hheap : Heap m s l ({tf} + (I + userPages f 0 (npages p.sz)) + R)) :
    UserTable m s l (userPages f 0 (npages p.sz)) (I + ({tf} + R)) I root f where
  heap := by
    rwa [show userPages f 0 (npages p.sz) + (I + ({tf} + R)) =
      {tf} + (I + userPages f 0 (npages p.sz)) + R by ac_rfl]
  table := h.table
  inner := Multiset.le_add_right _ _
  reaches := h.shape.reaches

/-- What `exec` does with arguments that `sys_exec` has put into pages, from state `s` on. -/
structure Passes (m : Machine) (deny : ℕ → Bool) (i : Pid) (tf : ℕ)
    (args : List (ℕ × List UInt8)) (s : Kernel) : Prop where
  few : args.length < maxArg
  strings : ∀ a ∈ args, ArgAt s a.1 a.2
  stack : ∀ s₁ l₁ root₁ sz₁ f₁ I₁ R₁, Space m tf s₁ l₁ root₁ sz₁ f₁ I₁ →
    Heap m s₁ l₁ (I₁ + userPages f₁ 0 (npages sz₁) + R₁) →
    (∀ a ∈ args, a.1 ∈ R₁ ∧ SamePage s s₁ a.1) → StackBuilt m deny s₁ l₁ tf root₁ sz₁ f₁ args
  exec : ∀ path file, ∃ r s',
    Prog.run (perform m deny) (exec m i path (args.map (·.1 * pgSize)) file) s = .ok (r, s') ∧
    (r = -1 ∨ r = args.length ∧ ∃ root' f' I' ptrs, Live m s' (s'.tables.proc i) tf root' f' I' ∧
      Arguments s'.page f' ((s'.tables.proc i).sz - userStack * pgSize) (s'.tables.proc i).sz
        (getField (s'.page tf) 120 8) (args.map (·.2)) ptrs)

/-- `exec` passes the arguments on. What `sys_exec` fetches are fewer than `MAXARG` strings that
are shorter than a page. The part of `exec` that makes the stack succeeds, if there is memory
for the stack, exactly if they fit; and if `exec` returns the number of arguments, then the
register `a1` points to the array of pointers to their copies. -/
theorem exec_passes_arguments {i : Pid} (hlive : Live m s (s.tables.proc i) tf root f I)
    (hheap : Heap m s l ({tf} + (I + userPages f 0 (npages (s.tables.proc i).sz)) + R))
    (uargv : ℕ) :
    ∃ ok args s',
      Prog.run (perform m deny) (fetchArgs i uargv maxArg 0 []) s =
        .ok ((ok, args.map (·.1 * pgSize)), s') ∧
      (ok = true → Passes m deny i tf args s') := by
  have huser := hlive.userTable hheap
  have hnil : Heap m s l (↑(([] : List (ℕ × List UInt8)).map (·.1)) +
      (userPages f 0 (npages (s.tables.proc i).sz) + (I + ({tf} + R)))) := by
    rw [List.map_nil, Multiset.coe_nil, zero_add]
    exact huser.heap
  have hspec : Ensures m deny (fun _ => False) (fetchArgs i uargv maxArg 0 [])
      (fun r s' => ∃ args, r.2 = args.map (·.1 * pgSize) ∧
        (r.1 = true → Passes m deny i tf args s')) s := by
    refine fetchArgs_exact [] huser hnil hlive.pagetable nofun
      fun ok args s' l' hmove hpost => ⟨args, rfl, fun hok => ?_⟩
    obtain ⟨hfew, hstrings⟩ := hpost hok
    rw [List.length_nil, zero_add] at hfew
    have hheap' := (hmove.add hnil).heap
    refine ⟨hfew, hstrings, fun s₁ l₁ root₁ sz₁ f₁ I₁ R₁ hspace₁ hheap₁ hargs => ?_,
      fun path file => ?_⟩
    · refine stackBuilt hspace₁ hheap₁ (fun a ha => ?_) hfew
      obtain ⟨haR, hsame⟩ := hargs a ha
      exact ⟨haR, (hstrings a ha).frame hsame⟩
    · have hlive' : Live m s' (s'.tables.proc i) tf root f I := by
        rw [hmove.tables]
        exact ⟨hlive.trapframe, hlive.pagetable,
          (huser.of_others hnil hmove).table, hlive.shape⟩
      have hheap₁ : Heap m s' l' ({tf} + (I + userPages f 0 (npages (s'.tables.proc i).sz)) +
          (R + ↑(args.map (·.1)))) := by
        rw [hmove.tables]
        convert hheap' using 1
        ac_rfl
      have hexec : Ensures m deny (fun _ => False) (exec m i path (args.map (·.1 * pgSize)) file)
          (fun r s' => r = -1 ∨ r = args.length ∧ ∃ root' f' I' ptrs,
            Live m s' (s'.tables.proc i) tf root' f' I' ∧
            Arguments s'.page f' ((s'.tables.proc i).sz - userStack * pgSize) (s'.tables.proc i).sz
              (getField (s'.page tf) 120 8) (args.map (·.2)) ptrs) s' := by
        refine exec_exact hlive' hheap₁ (fun a ha => ?_) hfew (fun _ _ _ => .inl rfl)
          fun bs s₂ l₂ root₂ sz₂ sp f₂ I₂ _ hexecuted => ?_
        · refine ⟨Multiset.mem_add.mpr (.inr ?_), hstrings a ha⟩
          exact Multiset.mem_coe.mpr (List.mem_map_of_mem ha)
        · obtain ⟨ptrs, harguments⟩ := hexecuted.arguments
          refine .inr ⟨rfl, root₂, f₂, I₂, ptrs, hexecuted.live, ?_⟩
          have hsz : (s₂.tables.proc i).sz = sz₂ := by
            rw [hexecuted.tables, Kernel.setProc]
            simp only [Function.update_self]
            rfl
          rw [hexecuted.registers.a1, hsz]
          exact harguments
      exact hexec.run
  obtain ⟨⟨ok, argv⟩, s', hrun, args, rfl, hpost⟩ := hspec.run
  exact ⟨ok, args, s', hrun, hpost⟩

/-- The first process calls `exec` as `initcode` does, with the path as its only argument. The stack
is made, and the argument is on it. -/
theorem exec_passes_arguments_firstProcess :
    ∃ p str s' s'' root' f' I' ptrs,
      Prog.run (perform smallKernel fun _ => false) (fetchArgs 0 43 maxArg 0 []) firstProcess =
        .ok ((true, [p * pgSize]), s') ∧
      Passes smallKernel (fun _ => false) 0 0x87ffa [(p, str)] s' ∧
      Prog.run (perform smallKernel fun _ => false)
        (exec smallKernel 0 [0x2f, 0x69] [p * pgSize] (some smallElf)) s' = .ok (1, s'') ∧
      Live smallKernel s'' (s''.tables.proc 0) 0x87ffa root' f' I' ∧
      Arguments s''.page f' ((s''.tables.proc 0).sz - userStack * pgSize) (s''.tables.proc 0).sz
        (getField (s''.page 0x87ffa) 120 8) [str] ptrs := by
  have hfetch : ((Prog.run (perform smallKernel fun _ => false) (fetchArgs 0 43 maxArg 0 [])
      firstProcess).toOption.any fun r =>
        r.1 = (true, [0x87ff7 * pgSize]) && loadsSmallElf [0x87ff7 * pgSize] r.2) = true := by
    decide +kernel
  obtain ⟨ok, args, s', hrun, hpasses⟩ := @exec_passes_arguments smallKernel (fun _ => false)
    firstProcess firstFree {0x87ff8} firstPages 0x87fff 0x87ffa firstMap 0 initproc_live
    firstProcess_owns 43
  rw [hrun] at hfetch
  obtain ⟨hr, hloads⟩ := Bool.and_eq_true_iff.mp hfetch
  obtain ⟨rfl, hargv⟩ := Prod.mk.inj (of_decide_eq_true hr)
  obtain ⟨⟨p, str⟩, rfl, hp⟩ := List.map_eq_singleton_iff.mp hargv
  obtain ⟨r, s'', hexec, hpost⟩ := (hpasses rfl).exec [0x2f, 0x69] (some smallElf)
  rw [← hp] at hloads
  obtain rfl : r = 1 := exec_smallElf hloads hexec
  obtain hr | ⟨-, root', f', I', ptrs, hlive, harguments⟩ := hpost
  · exact absurd hr (by decide)
  · exact ⟨p, str, s', s'', root', f', I', ptrs, hrun, hpasses rfl, hexec, hlive, harguments⟩

end Xv6.Vm
