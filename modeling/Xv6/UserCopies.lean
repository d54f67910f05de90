import Xv6.FirstProcess

/-!
# Copies between the kernel and user memory

`copyout`, `copyin` and `copyinstr` of `vm.c` for any 64-bit address and length. A page table
says which pages a user may read and write; a copy goes on byte by byte up to the first
address that the user may not touch, and it succeeds if there is none in the range.
-/

namespace Xv6.Vm
open Function

open OperationPrograms LittleEndianBlocks

/-- A page table in memory, with the pages `I` that hold it. What a user can reach through it
are pages among `U`; the pages `U` and `R` are in use, and the table is among `R`. -/
structure UserTable (m : Machine) (s : Kernel) (l : List ℕ) (U R I : Multiset ℕ) (root : ℕ)
    (f : ℕ → ℕ) : Prop where
  heap : Heap m s l (U + R)
  table : Table s root f I
  inner : I ≤ R
  reaches : Reaches f U

/-- The user may read the page: it is below `MAXVA`, valid, and has `PTE_U`. -/
def Readable (f : ℕ → ℕ) (v : ℕ) : Prop := v < 2 ^ 26 ∧ f v &&& pteV ≠ 0 ∧ f v &&& pteU ≠ 0

def Writable (f : ℕ → ℕ) (v : ℕ) : Prop := Readable f v ∧ f v &&& pteW ≠ 0

instance (f : ℕ → ℕ) (v : ℕ) : Decidable (Readable f v) := inferInstanceAs (Decidable (_ ∧ _ ∧ _))

instance (f : ℕ → ℕ) (v : ℕ) : Decidable (Writable f v) := inferInstanceAs (Decidable (_ ∧ _))

def vpn (va : ℕ) : ℕ := va % 2 ^ 64 / pgSize

def userByte (page : ℕ → Bytes pgSize) (f : ℕ → ℕ) (va : ℕ) : UInt8 :=
  getByte (page (ppn (f (va / pgSize)))) (va % pgSize)

def userBytes (page : ℕ → Bytes pgSize) (f : ℕ → ℕ) (va n : ℕ) : List UInt8 :=
  (List.range n).map fun k => userByte page f (va + k)

def storeUser (f : ℕ → ℕ) : (page : ℕ → Bytes pgSize) → (va : ℕ) → List UInt8 → ℕ → Bytes pgSize
  | page, _, [] => page
  | page, va, b :: bs =>
    let p := ppn (f (va / pgSize))
    storeUser f (update page p (putByte (page p) (va % pgSize) b)) (va + 1) bs

variable {m : Machine} {deny : ℕ → Bool} {F : Panic → Prop} {s s' : Kernel} {l : List ℕ}
  {U R I : Multiset ℕ} {root : ℕ} {f : ℕ → ℕ}

theorem userBytes_add (page : ℕ → Bytes pgSize) (f : ℕ → ℕ) (va a b : ℕ) :
    userBytes page f va (a + b) = userBytes page f va a ++ userBytes page f (va + a) b := by
  simp only [userBytes, List.range_add, List.map_append, List.map_map]
  congr 1
  refine List.map_congr_left fun k _ => ?_
  simp [Nat.add_assoc]

theorem length_userBytes (page : ℕ → Bytes pgSize) (f : ℕ → ℕ) (va n : ℕ) :
    (userBytes page f va n).length = n := by simp [userBytes]

theorem userBytes_succ (page : ℕ → Bytes pgSize) (f : ℕ → ℕ) (va n : ℕ) :
    userBytes page f va (n + 1) = userByte page f va :: userBytes page f (va + 1) n := by
  rw [Nat.add_comm, userBytes_add]
  rfl

theorem next_in_page {va n : ℕ} (h : va % pgSize + (n + 1) ≤ pgSize) (hn : 0 < n) :
    (va + 1) / pgSize = va / pgSize ∧ (va + 1) % pgSize = va % pgSize + 1 := by
  unfold pgSize at *
  omega

theorem getBytes_eq_userBytes {va n : ℕ} (page : ℕ → Bytes pgSize) (f : ℕ → ℕ)
    (h : va % pgSize + n ≤ pgSize) :
    getBytes (page (ppn (f (va / pgSize)))) (va % pgSize) n = userBytes page f va n := by
  induction n generalizing va with
  | zero => rfl
  | succ n ih =>
    rw [getBytes, userBytes_succ, userByte]
    congr 1
    obtain rfl | hn := Nat.eq_zero_or_pos n
    · rfl
    · obtain ⟨hdiv, hmod⟩ := next_in_page h hn
      rw [← hdiv, ← hmod]
      exact ih (by omega)

theorem storeUser_append (f : ℕ → ℕ) (page : ℕ → Bytes pgSize) (va : ℕ) (bs cs : List UInt8) :
    storeUser f page va (bs ++ cs) = storeUser f (storeUser f page va bs) (va + bs.length) cs := by
  induction bs generalizing page va with
  | nil => rfl
  | cons b bs ih =>
    simp only [List.cons_append, storeUser, ih, List.length_cons]
    congr 1
    omega

variable {bs : List UInt8}

theorem storeUser_eq_putBytes (f : ℕ → ℕ) (page : ℕ → Bytes pgSize) {va : ℕ}
    (h : va % pgSize + bs.length ≤ pgSize) :
    storeUser f page va bs = update page (ppn (f (va / pgSize)))
      (putBytes (page (ppn (f (va / pgSize)))) (va % pgSize) bs) := by
  induction bs generalizing page va with
  | nil => simp [storeUser, putBytes]
  | cons b bs ih =>
    rw [List.length_cons] at h
    cases bs with
    | nil => rfl
    | cons c bs =>
      obtain ⟨hdiv, hmod⟩ := next_in_page h (by simp)
      rw [storeUser, ih _ (by omega), hdiv, hmod, update_self, update_idem]
      rfl

/-- Different pages below `n` are in different pages of RAM. -/
def Unshared (f : ℕ → ℕ) (n : ℕ) : Prop := ∀ v < n, ∀ w < n, ppn (f v) = ppn (f w) → v = w

theorem userByte_putByte_ne (page : ℕ → Bytes pgSize) {n va a : ℕ} (hf : Unshared f n)
    (hva : va / pgSize < n) (ha : a / pgSize < n) (hne : a ≠ va) (b : UInt8) :
    userByte (update page (ppn (f (va / pgSize)))
      (putByte (page (ppn (f (va / pgSize)))) (va % pgSize) b)) f a = userByte page f a := by
  rw [userByte, userByte]
  by_cases hq : ppn (f (a / pgSize)) = ppn (f (va / pgSize))
  · have hdiv := hf _ ha _ hva hq
    rw [hq, update_self]
    refine getByte_putByte_ne _ _ fun hmod => hne ?_
    rw [← Nat.div_add_mod a pgSize, hdiv, hmod, Nat.div_add_mod]
  · rw [update_of_ne hq]

theorem userByte_storeUser_outside (page : ℕ → Bytes pgSize) {n va a : ℕ} (hf : Unshared f n)
    (hva : va + bs.length ≤ n * pgSize) (ha : a < n * pgSize) (hout : a < va ∨ va + bs.length ≤ a) :
    userByte (storeUser f page va bs) f a = userByte page f a := by
  induction bs generalizing page va with
  | nil => rfl
  | cons b bs ih =>
    rw [List.length_cons] at hva hout
    rw [storeUser, ih _ (by omega) (by omega)]
    have hdiv {x : ℕ} (hx : x < n * pgSize) : x / pgSize < n := Nat.div_lt_of_lt_mul (by
      rwa [Nat.mul_comm])
    exact userByte_putByte_ne page hf (hdiv (by omega)) (hdiv ha) (by omega) b

theorem userBytes_storeUser (page : ℕ → Bytes pgSize) {n va : ℕ} (hf : Unshared f n)
    (hva : va + bs.length ≤ n * pgSize) :
    userBytes (storeUser f page va bs) f va bs.length = bs := by
  induction bs generalizing page va with
  | nil => rfl
  | cons b bs ih =>
    rw [List.length_cons] at hva
    have hfirst : userByte (storeUser f page va (b :: bs)) f va = b := by
      rw [storeUser, userByte_storeUser_outside _ hf (by omega) (by omega) (.inl (by omega)),
        userByte, update_self]
      exact getByte_putByte_self _ _ (Nat.mod_lt _ (by decide))
    rw [List.length_cons, userBytes_succ, hfirst, storeUser, ih _ (by omega)]

/-- A copy of `len` bytes from address `va` on has done `j` of them; `A` are the pages it may
touch. -/
structure Transfers (A : ℕ → Prop) (va len j : ℕ) (ok : Bool) : Prop where
  le : j ≤ len
  ok_iff : ok = true ↔ j = len
  reached : ∀ k < j, A ((va + k) / pgSize)
  stopped : j < len → ¬A (vpn (va + j))

theorem vpn_eq {va : ℕ} (h : va < 2 ^ 64) : vpn va = va / pgSize := by
  rw [vpn, Nat.mod_eq_of_lt h]

theorem Transfers.zero (A : ℕ → Prop) (va : ℕ) : Transfers A va 0 0 true :=
  ⟨le_rfl, by simp, fun k hk => absurd hk (by omega), fun h => absurd h (by omega)⟩

variable {A : ℕ → Prop}

theorem Transfers.stop {va len : ℕ} (hlen : len ≠ 0) (hva : va < 2 ^ 64) (h : ¬A (va / pgSize)) :
    Transfers A va len 0 false :=
  ⟨Nat.zero_le len, by simp [Ne.symm hlen], fun k hk => absurd hk (by omega),
    fun _ => by rwa [Nat.add_zero, vpn_eq hva]⟩

theorem next_addr {va len : ℕ} (hva : va / pgSize < 2 ^ 26) (hlen : pgSize - va % pgSize ≤ len) :
    (pgRoundDown va + pgSize) % 2 ^ 64 = va + min (pgSize - va % pgSize) len := by
  rw [min_eq_left hlen]
  unfold pgRoundDown pgSize at *
  omega

theorem Transfers.next {va len j : ℕ} {ok : Bool} (hva : va / pgSize < 2 ^ 26)
    (hA : A (va / pgSize))
    (h : Transfers A ((pgRoundDown va + pgSize) % 2 ^ 64)
      (len - min (pgSize - va % pgSize) len) j ok) :
    Transfers A va len (min (pgSize - va % pgSize) len + j) ok := by
  have hfirst (k : ℕ) (hk : k < min (pgSize - va % pgSize) len) : A ((va + k) / pgSize) := by
    rwa [show (va + k) / pgSize = va / pgSize by unfold pgSize at *; omega]
  obtain ⟨hle, hok, hreached, hstopped⟩ := h
  refine ⟨by omega, ?_, fun k hk => ?_, fun hlt => ?_⟩
  · rw [hok]
    omega
  · by_cases hk' : k < min (pgSize - va % pgSize) len
    · exact hfirst k hk'
    · have hlen : pgSize - va % pgSize ≤ len := by omega
      have hA' := hreached (k - min (pgSize - va % pgSize) len) (by omega)
      rw [next_addr hva hlen] at hA'
      rwa [show va + min (pgSize - va % pgSize) len + (k - min (pgSize - va % pgSize) len) =
        va + k by omega] at hA'
  · have hlen : pgSize - va % pgSize ≤ len := by omega
    have hnot := hstopped (by omega)
    rwa [next_addr hva hlen, Nat.add_assoc] at hnot

theorem vpn_eq_of_all (hA : ∀ v, A v → v < 2 ^ 26) {va k : ℕ} (hva : va < 2 ^ 64)
    (h : ∀ i ≤ k, A (vpn (va + i))) : vpn (va + k) = (va + k) / pgSize := by
  apply vpn_eq
  by_contra hwrap
  have hlast := hA _ (h (2 ^ 64 - 1 - va) (by omega))
  rw [show va + (2 ^ 64 - 1 - va) = 2 ^ 64 - 1 by omega] at hlast
  exact absurd hlast (by decide)

theorem Transfers.exists (hA : ∀ v, A v → v < 2 ^ 26) {va : ℕ} (hva : va < 2 ^ 64) (len : ℕ) :
    ∃ j ok, Transfers A va len j ok := by
  classical
  have hreached {j : ℕ} (hj : ∀ k < j, A (vpn (va + k))) (k : ℕ) (hk : k < j) :
      A ((va + k) / pgSize) := by
    rw [← vpn_eq_of_all hA hva fun i hi => hj i (by omega)]
    exact hj k hk
  by_cases hall : ∀ k < len, A (vpn (va + k))
  · exact ⟨len, true, le_rfl, by simp, hreached hall, fun h => absurd h (by omega)⟩
  · have hex : ∃ k, k < len ∧ ¬A (vpn (va + k)) := by simpa using hall
    obtain ⟨hlt, hnot⟩ := Nat.find_spec hex
    refine ⟨Nat.find hex, false, hlt.le, by simp; omega, hreached fun k hk => ?_, fun _ => hnot⟩
    have hmin := Nat.find_min hex hk
    by_contra hnot'
    exact hmin ⟨by omega, hnot'⟩

theorem Transfers.ok_iff_all {va len j : ℕ} {ok : Bool} (h : Transfers A va len j ok)
    (hA : ∀ v, A v → v < 2 ^ 26) : ok = true ↔ ∀ k < len, A (vpn (va + k)) := by
  rw [h.ok_iff]
  constructor
  · rintro rfl k hk
    have hpage := h.reached k hk
    have hlt := hA _ hpage
    rwa [vpn_eq (by unfold pgSize at hlt; omega)]
  · intro hall
    by_contra hne
    have hlt : j < len := Nat.lt_of_le_of_ne h.le hne
    exact h.stopped hlt (hall j hlt)

theorem storeUser_next (f : ℕ → ℕ) (page : ℕ → Bytes pgSize) {va : ℕ} (hva : va / pgSize < 2 ^ 26)
    {src : List UInt8} {n : ℕ} (hn : min (pgSize - va % pgSize) src.length = n) (j : ℕ) :
    storeUser f (storeUser f page va (src.take n)) ((pgRoundDown va + pgSize) % 2 ^ 64)
      ((src.drop n).take j) = storeUser f page va (src.take (n + j)) := by
  rw [List.take_add, storeUser_append, List.length_take]
  by_cases hlen : pgSize - va % pgSize ≤ src.length
  · rw [next_addr hva hlen, hn, min_eq_left (by omega)]
  · rw [List.drop_eq_nil_of_le (by omega), List.take_nil]
    simp only [storeUser]

theorem userBytes_next (page : ℕ → Bytes pgSize) (f : ℕ → ℕ) {va : ℕ} (hva : va / pgSize < 2 ^ 26)
    {len n j : ℕ} (hn : min (pgSize - va % pgSize) len = n) (hj : j ≤ len - n) :
    userBytes page f va n ++ userBytes page f ((pgRoundDown va + pgSize) % 2 ^ 64) j =
      userBytes page f va (n + j) := by
  rw [userBytes_add]
  by_cases hlen : pgSize - va % pgSize ≤ len
  · rw [next_addr hva hlen, hn]
  · obtain rfl : j = 0 := by omega
    simp [userBytes]

theorem readable_lt {v : ℕ} (h : Readable f v) : v < 2 ^ 26 := h.1

theorem writable_lt {v : ℕ} (h : Writable f v) : v < 2 ^ 26 := h.1.1

theorem lt_of_div_lt {va : ℕ} (h : va / pgSize < 2 ^ 26) : va < 2 ^ 38 := by
  unfold pgSize at h
  omega

theorem pgRoundDown_div (va : ℕ) : pgRoundDown va / pgSize = va / pgSize := by
  unfold pgRoundDown pgSize
  omega

theorem pgRoundDown_lt_maxVa {va : ℕ} : pgRoundDown va < maxVa ↔ va / pgSize < 2 ^ 26 := by
  unfold pgRoundDown maxVa pgSize
  omega

theorem userAddr_pgRoundDown (f : ℕ → ℕ) (va : ℕ) :
    userAddr f (pgRoundDown va) =
      if Readable f (va / pgSize) then ppn (f (va / pgSize)) * pgSize else 0 := by
  simp only [userAddr, pgRoundDown_div, pgRoundDown_lt_maxVa, pte2pa_eq]
  rfl

theorem SamePage.write {p q : ℕ} (hq : q ≠ p) {b : Bytes pgSize} {w : ℕ → Bool} :
    SamePage s (s.write p b w) q :=
  ⟨update_of_ne hq _ _, rfl, update_of_ne hq _ _⟩

namespace UserTable

theorem heapI (h : UserTable m s l U R I root f) : Heap m s l I :=
  h.heap.of_le (h.inner.trans (Multiset.le_add_left _ _))

theorem mem_user (h : UserTable m s l U R I root f) {v : ℕ} (hv : Readable f v) :
    ppn (f v) ∈ U := h.reaches v hv.1 hv.2.1 hv.2.2

theorem pool (h : UserTable m s l U R I root f) {v : ℕ} (hv : Readable f v) :
    m.InPool (ppn (f v)) :=
  h.heap.pool _ (Multiset.mem_add.mpr (.inr (Multiset.mem_add.mpr (.inl (h.mem_user hv)))))

theorem addr_ne_zero (h : UserTable m s l U R I root f) {v : ℕ} (hv : Readable f v) :
    ppn (f v) * pgSize ≠ 0 :=
  Nat.mul_ne_zero (Machine.inPool_pos (h.pool hv)).ne' (by decide)

theorem of_moves (h : UserTable m s l U R I root f) (hmove : Moves m s l U s' l U) :
    UserTable m s' l U R I root f where
  heap := (hmove.add h.heap).heap
  table := h.table.frame fun q hq => hmove.keeps h.heap q (Multiset.mem_of_le h.inner hq)
  inner := h.inner
  reaches := h.reaches

theorem copyout_round (h : UserTable m s l U R I root f) {Q : Bool → Kernel → Prop} {dstva : ℕ}
    {next : ℕ → K Bool} (hno : ¬Writable f (dstva / pgSize) → Q false s)
    (hyes : Writable f (dstva / pgSize) →
      Ensures m deny F (next (ppn (f (dstva / pgSize)) * pgSize)) Q s) :
    Ensures m deny F
      (if maxVa ≤ pgRoundDown dstva then return false
      else do
        let pte ← walk (root * pgSize) (pgRoundDown dstva) false
        if pte = 0 then return false
        else
          let e ← load pte 8
          if e &&& pteW = 0 then return false
          else
            let pa0 ← walkaddr (root * pgSize) (pgRoundDown dstva)
            if pa0 = 0 then return false else next pa0) Q s := by
  have hstop (hnot : ¬Writable f (dstva / pgSize)) : Ensures m deny F (pure false) Q s := by
    rw [ensures_pure]
    exact hno hnot
  by_cases hva : maxVa ≤ pgRoundDown dstva
  · rw [if_pos hva]
    apply hstop
    intro hw
    have := pgRoundDown_lt_maxVa.mpr (writable_lt hw)
    omega
  have hlt : dstva / pgSize < 2 ^ 26 := pgRoundDown_lt_maxVa.mp (by omega)
  rw [if_neg hva, ensures_bind]
  refine walk_lookup h.heapI h.table (by omega) (fun hzero => ?_) (fun pa hpa hentry => ?_)
  · apply hstop
    intro hw
    rw [pgRoundDown_div] at hzero
    exact hw.2 (by rw [hzero, Nat.zero_and])
  rw [pgRoundDown_div] at hentry
  rw [if_neg hpa, ensures_bind]
  refine hentry.load h.heapI (by omega) ?_
  by_cases hwrite : f (dstva / pgSize) &&& pteW = 0
  · rw [if_pos hwrite]
    exact hstop fun hw => hw.2 hwrite
  rw [if_neg hwrite, ensures_bind]
  refine walkaddr_spec h.heapI h.table ?_
  rw [userAddr_pgRoundDown]
  by_cases hread : Readable f (dstva / pgSize)
  · rw [if_pos hread, if_neg (h.addr_ne_zero hread)]
    exact hyes ⟨hread, hwrite⟩
  · rw [if_neg hread, if_pos rfl]
    exact hstop fun hw => hread hw.1

end UserTable

theorem copyoutFrom_exact {Q : Bool → Kernel → Prop} {fuel dstva : ℕ} {src : List UInt8}
    (h : UserTable m s l U R I root f) (hfuel : src.length ≤ fuel)
    (hQ : ∀ ok s' j, (dstva < 2 ^ 64 → Transfers (Writable f) dstva src.length j ok) →
      s'.page = storeUser f s.page dstva (src.take j) → Moves m s l U s' l U →
      (∀ q, (∀ v, Writable f v → ppn (f v) ≠ q) → SamePage s s' q) → Q ok s') :
    Ensures m deny F (copyoutFrom (root * pgSize) fuel dstva src) Q s := by
  induction fuel generalizing s dstva src with
  | zero =>
    obtain rfl : src = [] := List.eq_nil_of_length_eq_zero (by omega)
    rw [copyoutFrom, ensures_pure]
    exact hQ true s 0 (fun _ => .zero _ _) rfl (.refl h.heap.mono) fun q _ => .refl s q
  | succ fuel ih =>
    rw [copyoutFrom]
    by_cases hsrc : src = []
    · subst hsrc
      rw [if_pos List.isEmpty_nil, ensures_pure]
      exact hQ true s 0 (fun _ => .zero _ _) rfl (.refl h.heap.mono) fun q _ => .refl s q
    have hlen : src.length ≠ 0 := fun hnil => hsrc (List.eq_nil_of_length_eq_zero hnil)
    rw [if_neg (by simpa using hsrc)]
    refine h.copyout_round (fun hno => ?_) fun hyes => ?_
    · exact hQ false s 0 (.stop hlen · hno) rfl (.refl h.heap.mono) fun q _ => .refl s q
    rw [sub_pgRoundDown, ensures_bind]
    generalize hn : min (pgSize - dstva % pgSize) src.length = n at *
    have hmod := mod_pgSize_lt dstva
    have hfit : dstva % pgSize + (src.take n).length ≤ pgSize := by
      rw [List.length_take]
      omega
    refine put_spec (h.pool hyes.1) hmod hfit ?_
    generalize hs₁ : s.write (ppn (f (dstva / pgSize))) _ _ = s₁
    have hmove : Moves m s l U s₁ l U := hs₁ ▸ h.heap.mono.write (h.mem_user hyes.1) _ _
    have hpage : s₁.page = storeUser f s.page dstva (src.take n) := by
      rw [storeUser_eq_putBytes f s.page hfit, ← hs₁]
      rfl
    have hlen' : (src.drop n).length = src.length - n := List.length_drop
    refine ih (h.of_moves hmove) (by omega) fun ok s' j htrans hpage' hmove' hsame' => ?_
    rw [hlen'] at htrans
    refine hQ ok s' (n + j) (fun _ => ?_) ?_ (hmove.trans hmove') fun q hq => ?_
    · subst hn
      exact .next (writable_lt hyes) hyes (htrans (Nat.mod_lt _ (by decide)))
    · rw [hpage', hpage]
      exact storeUser_next f s.page (writable_lt hyes) hn j
    · refine SamePage.trans ?_ (hsame' q hq)
      rw [← hs₁]
      exact SamePage.write (hq _ hyes).symm

/-- The copy moves no page, whatever the address. -/
theorem UserTable.copyout_moves (h : UserTable m s l U R I root f) {Q : Bool → Kernel → Prop}
    {va : ℕ} {src : List UInt8} (hQ : ∀ ok s', Moves m s l U s' l U → Q ok s') :
    Ensures m deny F (copyout (root * pgSize) va src) Q s :=
  copyoutFrom_exact h le_rfl fun ok s' _ _ _ hmove _ => hQ ok s' hmove

theorem copyinFrom_exact {Q : List UInt8 × Bool → Kernel → Prop} {fuel srcva len : ℕ}
    (h : UserTable m s l U R I root f) (hfuel : len ≤ fuel)
    (hQ : ∀ ok j, (srcva < 2 ^ 64 → Transfers (Readable f) srcva len j ok) →
      Q (userBytes s.page f srcva j, ok) s) :
    Ensures m deny F (copyinFrom (root * pgSize) fuel srcva len) Q s := by
  induction fuel generalizing srcva len Q with
  | zero =>
    obtain rfl : len = 0 := by omega
    rw [copyinFrom, ensures_pure]
    exact hQ true 0 fun _ => .zero _ _
  | succ fuel ih =>
    rw [copyinFrom]
    by_cases hlen : len = 0
    · subst hlen
      rw [if_pos rfl, ensures_pure]
      exact hQ true 0 fun _ => .zero _ _
    rw [if_neg hlen, ensures_bind]
    refine walkaddr_spec h.heapI h.table ?_
    rw [userAddr_pgRoundDown]
    by_cases hread : Readable f (srcva / pgSize)
    · rw [if_pos hread, if_neg (h.addr_ne_zero hread), sub_pgRoundDown, ensures_bind]
      generalize hn : min (pgSize - srcva % pgSize) len = n
      have hmod := mod_pgSize_lt srcva
      have hfit : srcva % pgSize + n ≤ pgSize := by omega
      refine takeUser_spec (h.pool hread) hmod hfit ?_
      rw [getBytes_eq_userBytes s.page f hfit, ensures_bind]
      refine ih (by omega) fun ok j htrans => ?_
      have htrans := htrans (Nat.mod_lt _ (by decide))
      rw [ensures_pure]
      simp only [userBytes_next s.page f (readable_lt hread) hn htrans.le]
      subst hn
      exact hQ ok _ fun _ => .next (readable_lt hread) hread htrans
    · rw [if_neg hread, if_pos rfl, ensures_pure]
      exact hQ false 0 (.stop hlen · hread)

/-- What `copyinstr` returns for the bytes that it can read. -/
def cutString (bs : List UInt8) : List UInt8 × Bool :=
  if 0 ∈ bs then (bs.takeWhile (· ≠ 0) ++ [0], true) else (bs, false)

theorem cutString_append_of_mem (cs : List UInt8) (h : 0 ∈ bs) :
    cutString (bs ++ cs) = cutString bs := by
  have hshort := length_takeWhile_lt h
  rw [cutString, cutString, if_pos (List.mem_append_left cs h), if_pos h, List.takeWhile_append,
    if_neg (by omega)]

theorem cutString_append_of_notMem {bs cs : List UInt8} (h : 0 ∉ bs) :
    cutString (bs ++ cs) = (bs ++ (cutString cs).1, (cutString cs).2) := by
  have hall : ∀ b ∈ bs, (decide (b ≠ 0)) = true := fun b hb => by
    simpa using fun hzero : b = 0 => h (hzero ▸ hb)
  rw [cutString, cutString]
  by_cases hcs : 0 ∈ cs
  · rw [if_pos (List.mem_append_right bs hcs), if_pos hcs, List.takeWhile_append_of_pos hall,
      List.append_assoc]
  · rw [if_neg (by simp [h, hcs]), if_neg hcs]

theorem copyinstrFrom_exact {Q : List UInt8 × Bool → Kernel → Prop} {fuel srcva max : ℕ}
    (h : UserTable m s l U R I root f) (hfuel : max ≤ fuel) (hva : srcva < 2 ^ 64)
    (hQ : ∀ ok j, Transfers (Readable f) srcva max j ok →
      Q (cutString (userBytes s.page f srcva j)) s) :
    Ensures m deny F (copyinstrFrom (root * pgSize) fuel srcva max) Q s := by
  induction fuel generalizing srcva max Q with
  | zero =>
    obtain rfl : max = 0 := by omega
    rw [copyinstrFrom, ensures_pure]
    exact hQ true 0 (.zero _ _)
  | succ fuel ih =>
    rw [copyinstrFrom]
    by_cases hmax : max = 0
    · subst hmax
      rw [if_pos rfl, ensures_pure]
      exact hQ true 0 (.zero _ _)
    rw [if_neg hmax, ensures_bind]
    refine walkaddr_spec h.heapI h.table ?_
    rw [userAddr_pgRoundDown]
    by_cases hread : Readable f (srcva / pgSize)
    · rw [if_pos hread, if_neg (h.addr_ne_zero hread), sub_pgRoundDown, ensures_bind]
      generalize hn : min (pgSize - srcva % pgSize) max = n
      have hmod := mod_pgSize_lt srcva
      have hfit : srcva % pgSize + n ≤ pgSize := by omega
      refine takeUser_spec (h.pool hread) hmod hfit ?_
      rw [getBytes_eq_userBytes s.page f hfit]
      by_cases hzero : 0 ∈ userBytes s.page f srcva n
      · -- the bytes behind the first page are not looked at
        obtain ⟨j, ok, htrans⟩ := Transfers.exists (A := Readable f) (fun _ => readable_lt)
          (Nat.mod_lt (pgRoundDown srcva + pgSize) (y := 2 ^ 64) (by decide)) (max - n)
        have hcut := cutString_append_of_mem
          (userBytes s.page f ((pgRoundDown srcva + pgSize) % 2 ^ 64) j) hzero
        rw [userBytes_next s.page f (readable_lt hread) hn htrans.le] at hcut
        rw [if_pos hzero, ensures_pure]
        rw [cutString, cutString, if_pos hzero] at hcut
        subst hn
        rw [← hcut]
        exact hQ ok _ (.next (readable_lt hread) hread htrans)
      · rw [if_neg hzero, ensures_bind]
        refine ih (by omega) (Nat.mod_lt _ (by decide)) fun ok j htrans => ?_
        rw [ensures_pure, ← cutString_append_of_notMem hzero,
          userBytes_next s.page f (readable_lt hread) hn htrans.le]
        subst hn
        exact hQ ok _ (.next (readable_lt hread) hread htrans)
    · rw [if_neg hread, if_pos rfl, ensures_pure]
      exact hQ false 0 (.stop hmax hva hread)

theorem Transfers.eq (hA : ∀ v, A v → v < 2 ^ 26) {va len j j' : ℕ} {ok ok' : Bool}
    (h : Transfers A va len j ok) (h' : Transfers A va len j' ok') : j = j' ∧ ok = ok' := by
  have hle {j j' : ℕ} {ok ok' : Bool} (h : Transfers A va len j ok)
      (h' : Transfers A va len j' ok') : j' ≤ j := by
    by_contra hlt
    have hpage := h'.reached j (by omega)
    refine h.stopped (by have := h'.le; omega) ?_
    rwa [vpn_eq (by have := lt_of_div_lt (hA _ hpage); omega)]
  obtain rfl : j = j' := le_antisymm (hle h' h) (hle h h')
  exact ⟨rfl, Bool.eq_iff_iff.mpr (h.ok_iff.trans h'.ok_iff.symm)⟩

theorem UserTable.copyin_run (h : UserTable m s l U R I root f) {va len j : ℕ} {ok : Bool}
    (hva : va < 2 ^ 64) (htrans : Transfers (Readable f) va len j ok) :
    Prog.run (perform m deny) (copyin (root * pgSize) va len) s =
      .ok ((userBytes s.page f va j, ok), s) := by
  have hspec : Ensures m deny (fun _ => False) (copyin (root * pgSize) va len)
      (fun r s' => r = (userBytes s.page f va j, ok) ∧ s' = s) s := by
    refine copyinFrom_exact h le_rfl fun ok' j' htrans' => ?_
    obtain ⟨rfl, rfl⟩ := htrans.eq (fun _ => readable_lt) (htrans' hva)
    exact ⟨rfl, rfl⟩
  obtain ⟨r, s', hrun, rfl, rfl⟩ := hspec.run
  exact hrun

/-- The outcome of a `copyout` of `src` to `va`: it has stored `j` bytes, all of them in pages
that the user may write, and it returns 0 if `ok`. -/
structure CopiedOut (f : ℕ → ℕ) (s : Kernel) (va : ℕ) (src : List UInt8) (j : ℕ) (ok : Bool)
    (s' : Kernel) : Prop where
  ok_iff : ok = true ↔ ∀ k < src.length, Writable f (vpn (va + k))
  le : j ≤ src.length
  all : ok = true → j = src.length
  reached : ∀ k < j, Writable f ((va + k) / pgSize)
  stored : s'.page = storeUser f s.page va (src.take j)
  same : ∀ q, (∀ v, Writable f v → ppn (f v) ≠ q) → SamePage s s' q
  freelist : s'.freelist = s.freelist
  tables : s'.tables = s.tables

/-- The outcome of a `copyin` of `len` bytes from `va`: it has read the bytes `bs`, all of them
in pages that the user may read, and it returns 0 if `ok`. -/
structure CopiedIn (f : ℕ → ℕ) (s : Kernel) (va len : ℕ) (bs : List UInt8) (ok : Bool) : Prop where
  ok_iff : ok = true ↔ ∀ k < len, Readable f (vpn (va + k))
  le : bs.length ≤ len
  all : ok = true → bs.length = len
  reached : ∀ k < bs.length, Readable f ((va + k) / pgSize)
  read : bs = userBytes s.page f va bs.length

theorem freelist_eq {page page' : ℕ → Bytes pgSize} {a a' : ℕ} (h : Chain page a l)
    (h' : Chain page' a' l) : a' = a := by
  cases l with
  | nil => exact h'.trans h.symm
  | cons p ps => exact h'.1.trans h.1.symm

/-- `copyout` and `copyin` are exact for every page table of a user, every address and every
length: they return, with 0 if the user may touch every page of the range. They transfer the
bytes of the range, all of them or those before the first page which the user may not touch,
and nothing but the user's pages matters to them or is changed by them. -/
theorem copyout_copyin_exact (h : UserTable m s l U R I root f) {va : ℕ} (hva : va < 2 ^ 64) :
    (∀ src, ∃ j ok s', Prog.run (perform m deny) (copyout (root * pgSize) va src) s = .ok (ok, s') ∧
      CopiedOut f s va src j ok s') ∧
    (∀ len, ∃ bs ok,
      Prog.run (perform m deny) (copyin (root * pgSize) va len) s = .ok ((bs, ok), s) ∧
      CopiedIn f s va len bs ok ∧
      ∀ s₂ l₂ U₂ R₂ I₂ root₂, UserTable m s₂ l₂ U₂ R₂ I₂ root₂ f →
        (∀ v, Readable f v → s₂.page (ppn (f v)) = s.page (ppn (f v))) →
        Prog.run (perform m deny) (copyin (root₂ * pgSize) va len) s₂ =
          .ok ((bs, ok), s₂)) := by
  refine ⟨fun src => ?_, fun len => ?_⟩
  · have hspec : Ensures m deny (fun _ => False) (copyout (root * pgSize) va src)
        (fun ok s' => ∃ j, CopiedOut f s va src j ok s') s := by
      refine copyoutFrom_exact h le_rfl fun ok s' j htrans hstored hmove hsame => ⟨j, ?_⟩
      have htrans := htrans hva
      exact ⟨htrans.ok_iff_all fun _ => writable_lt, htrans.le, htrans.ok_iff.mp, htrans.reached,
        hstored, hsame, freelist_eq h.heap.chain hmove.heap.chain, hmove.tables⟩
    obtain ⟨ok, s', hrun, j, hout⟩ := hspec.run
    exact ⟨j, ok, s', hrun, hout⟩
  · obtain ⟨j, ok, htrans⟩ := Transfers.exists (A := Readable f) (fun _ => readable_lt) hva len
    have hrun := @UserTable.copyin_run m deny _ _ _ _ _ _ _ h _ _ _ _ hva htrans
    refine ⟨userBytes s.page f va j, ok, hrun, ?_, ?_⟩
    · refine ⟨htrans.ok_iff_all fun _ => readable_lt, ?_, ?_, ?_, ?_⟩ <;>
        rw [length_userBytes]
      · exact htrans.le
      · exact htrans.ok_iff.mp
      · exact htrans.reached
    · intro s₂ l₂ U₂ R₂ I₂ root₂ h₂ hpages
      have hbytes : userBytes s₂.page f va j = userBytes s.page f va j := by
        refine List.map_congr_left fun k hk => ?_
        rw [userByte, userByte, hpages _ (htrans.reached k (List.mem_range.mp hk))]
      rw [← hbytes]
      exact h₂.copyin_run hva htrans

theorem firstProcess_user :
    UserTable smallKernel firstProcess firstFree (userPages firstMap 0 1)
      (firstPages + {0x87ffa, 0x87ff8}) firstPages 0x87fff firstMap where
  heap := by
    have hheap := firstProcess_heap
    rwa [add_comm firstPages, add_assoc] at hheap
  table := firstProcess_table
  inner := Multiset.le_add_right _ _
  reaches := firstProcess_shape.reaches

theorem copyout_copyin_exact_firstProcess :
    (∃ s', Prog.run (perform smallKernel fun _ => false) (copyout (0x87fff * pgSize) 4095 [1, 2])
      firstProcess = .ok (false, s')) ∧
    Prog.run (perform smallKernel fun _ => false) (copyin (0x87fff * pgSize) 36 6) firstProcess =
      .ok (([0x2f, 0x69, 0x6e, 0x69, 0x74, 0], true), firstProcess) := by
  obtain ⟨hcopyout, -⟩ :=
    @copyout_copyin_exact _ (fun _ => false) _ _ _ _ _ _ _ firstProcess_user 4095 (by decide)
  obtain ⟨-, hcopyin⟩ :=
    @copyout_copyin_exact _ (fun _ => false) _ _ _ _ _ _ _ firstProcess_user 36 (by decide)
  obtain ⟨j, ok, s', hrun, hout⟩ := hcopyout [1, 2]
  obtain ⟨bs, ok', hrun', hin, -⟩ := hcopyin 6
  have hok : ok = false := Bool.eq_false_iff.mpr fun hok =>
    absurd (hout.ok_iff.mp hok 1 (by decide)) (by decide)
  have hok' : ok' = true := hin.ok_iff.mpr (by decide)
  have hbs : bs = [0x2f, 0x69, 0x6e, 0x69, 0x74, 0] := by
    rw [hin.read, hin.all hok']
    decide +kernel
  exact ⟨⟨s', by rw [hrun, hok]⟩, by rw [hrun', hok', hbs]⟩

/-- The user has a string at `va` whose terminating zero is at `va + k`, among the first `max`
bytes and in pages that the user may read. -/
structure UserString (page : ℕ → Bytes pgSize) (f : ℕ → ℕ) (va max k : ℕ) : Prop where
  lt : k < max
  readable : ∀ i ≤ k, Readable f (vpn (va + i))
  zero : userByte page f (va + k) = 0
  first : ∀ i < k, userByte page f (va + i) ≠ 0

variable {page : ℕ → Bytes pgSize}

theorem mem_userBytes {va n : ℕ} {b : UInt8} :
    b ∈ userBytes page f va n ↔ ∃ k < n, userByte page f (va + k) = b := by
  simp [userBytes]

theorem UserString.cutString_eq {va max j k : ℕ} {ok : Bool} (h : UserString page f va max k)
    (htrans : Transfers (Readable f) va max j ok) :
    cutString (userBytes page f va j) = (userBytes page f va (k + 1), true) := by
  have hlt : k < j := by
    by_contra hle
    exact htrans.stopped (by have := h.lt; omega) (h.readable j (by omega))
  have hlast : userBytes page f va (k + 1) = userBytes page f va k ++ [0] := by
    rw [userBytes_add, ← h.zero]
    rfl
  have hfirst : 0 ∉ userBytes page f va k := fun hmem => by
    obtain ⟨i, hi, hzero⟩ := mem_userBytes.mp hmem
    exact h.first i hi hzero
  obtain ⟨c, rfl⟩ := Nat.exists_eq_add_of_lt hlt
  rw [show k + c + 1 = k + 1 + c by omega, userBytes_add,
    cutString_append_of_mem _ (by simp [hlast]), hlast, cutString_append_of_notMem hfirst]
  rfl

theorem Transfers.cutString_iff {va max j : ℕ} {ok : Bool}
    (h : Transfers (Readable f) va max j ok) :
    (cutString (userBytes page f va j)).2 = true ↔ ∃ k, UserString page f va max k := by
  constructor
  · intro hcut
    have hmem : 0 ∈ userBytes page f va j := by
      by_contra hnot
      simp [cutString, hnot] at hcut
    have hex : ∃ k, k < j ∧ userByte page f (va + k) = 0 := mem_userBytes.mp hmem
    obtain ⟨hlt, hzero⟩ := Nat.find_spec hex
    refine ⟨Nat.find hex, hlt.trans_le h.le, fun i hi => ?_, hzero, fun i hi hzero' => ?_⟩
    · have hpage := h.reached i (by omega)
      rwa [vpn_eq (by have := lt_of_div_lt (readable_lt hpage); omega)]
    · exact Nat.find_min hex hi ⟨by omega, hzero'⟩
  · rintro ⟨k, hk⟩
    rw [hk.cutString_eq h]

theorem length_cutString_le (bs : List UInt8) : (cutString bs).1.length ≤ bs.length := by
  rw [cutString]
  split
  · next hmem =>
    have hshort := length_takeWhile_lt hmem
    rw [List.length_append, List.length_singleton]
    omega
  · exact le_rfl

theorem UserTable.copyinstr_run (h : UserTable m s l U R I root f) {va max j : ℕ} {ok : Bool}
    (hva : va < 2 ^ 64) (htrans : Transfers (Readable f) va max j ok) :
    Prog.run (perform m deny) (copyinstr (root * pgSize) va max) s =
      .ok (cutString (userBytes s.page f va j), s) := by
  have hspec : Ensures m deny (fun _ => False) (copyinstr (root * pgSize) va max)
      (fun r s' => r = cutString (userBytes s.page f va j) ∧ s' = s) s := by
    refine copyinstrFrom_exact h le_rfl hva fun ok' j' htrans' => ?_
    obtain ⟨rfl, rfl⟩ := htrans.eq (fun _ => readable_lt) htrans'
    exact ⟨rfl, rfl⟩
  obtain ⟨r, s', hrun, rfl, rfl⟩ := hspec.run
  exact hrun

/-- `copyinstr` is exact: it returns, with 0 if there is a string that ends within `max` bytes
and that the user may read, and then it has read the string up to its terminating zero. What
lies behind the zero does not matter. -/
theorem copyinstr_exact (h : UserTable m s l U R I root f) {va : ℕ} (hva : va < 2 ^ 64)
    (max : ℕ) :
    ∃ bs ok, Prog.run (perform m deny) (copyinstr (root * pgSize) va max) s = .ok ((bs, ok), s) ∧
      bs.length ≤ max ∧ (ok = true ↔ ∃ k, UserString s.page f va max k) ∧
      ∀ k, UserString s.page f va max k → bs = userBytes s.page f va (k + 1) ∧
        ∀ s₂ l₂ U₂ R₂ I₂ root₂ f₂, UserTable m s₂ l₂ U₂ R₂ I₂ root₂ f₂ →
          (∀ i ≤ k, Readable f₂ (vpn (va + i)) ∧
            userByte s₂.page f₂ (va + i) = userByte s.page f (va + i)) →
          Prog.run (perform m deny) (copyinstr (root₂ * pgSize) va max) s₂ =
            .ok ((bs, ok), s₂) := by
  obtain ⟨j, ok, htrans⟩ := Transfers.exists (A := Readable f) (fun _ => readable_lt) hva max
  refine ⟨(cutString (userBytes s.page f va j)).1, (cutString (userBytes s.page f va j)).2,
    h.copyinstr_run hva htrans, ?_, htrans.cutString_iff, fun k hk => ⟨?_, ?_⟩⟩
  · refine (length_cutString_le _).trans ?_
    rw [length_userBytes]
    exact htrans.le
  · rw [hk.cutString_eq htrans]
  · intro s₂ l₂ U₂ R₂ I₂ root₂ f₂ h₂ hagree
    obtain ⟨j₂, ok₂, htrans₂⟩ :=
      Transfers.exists (A := Readable f₂) (fun _ => readable_lt) hva max
    have hk₂ : UserString s₂.page f₂ va max k :=
      ⟨hk.lt, fun i hi => (hagree i hi).1, (hagree k le_rfl).2.trans hk.zero,
        fun i hi => (hagree i hi.le).2 ▸ hk.first i hi⟩
    have hbytes : userBytes s₂.page f₂ va (k + 1) = userBytes s.page f va (k + 1) :=
      List.map_congr_left fun i hi => (hagree i (Nat.le_of_lt_succ (List.mem_range.mp hi))).2
    rw [h₂.copyinstr_run hva htrans₂, hk₂.cutString_eq htrans₂, hbytes, hk.cutString_eq htrans]

theorem copyinstr_exact_firstProcess :
    Prog.run (perform smallKernel fun _ => false) (copyinstr (0x87fff * pgSize) 36 128)
      firstProcess = .ok (([0x2f, 0x69, 0x6e, 0x69, 0x74, 0], true), firstProcess) := by
  obtain ⟨bs, ok, hrun, -, hok, hbs⟩ :=
    @copyinstr_exact _ (fun _ => false) _ _ _ _ _ _ _ firstProcess_user 36 (by decide) 128
  have hstring : UserString firstProcess.page firstMap 36 128 5 :=
    ⟨by decide, by decide +kernel, by decide +kernel, by decide +kernel⟩
  have hbytes : userBytes firstProcess.page firstMap 36 6 = [0x2f, 0x69, 0x6e, 0x69, 0x74, 0] := by
    decide +kernel
  rw [hrun, hok.mpr ⟨5, hstring⟩, (hbs 5 hstring).1, hbytes]

end Xv6.Vm
