import Xv6.UserCopies

/-!
# The arguments of a new program

`sys_exec` of `sysfile.c` copies the argument strings of a user into pages of the kernel, and
`exec` of `exec.c` pushes them on the stack of the new program, followed by the array of
pointers to them.
-/

namespace Xv6.Vm

open OperationPrograms LittleEndianBlocks

def roundUp16 (n : ℕ) : ℕ := (n + 15) / 16 * 16

/-- Where the strings go, from the stack pointer `sp` on. -/
def argPtrs : (sp : ℕ) → List (List UInt8) → List ℕ
  | _, [] => []
  | sp, a :: as =>
    (sp - roundUp16 (a.length + 1)) :: argPtrs (sp - roundUp16 (a.length + 1)) as

def argSize (as : List (List UInt8)) : ℕ := (as.map fun a => roundUp16 (a.length + 1)).sum

def stackSize (as : List (List UInt8)) : ℕ := argSize as + roundUp16 ((as.length + 1) * 8)

def storeArgs (f : ℕ → ℕ) : (page : ℕ → Bytes pgSize) → (sp : ℕ) → List (List UInt8) →
    ℕ → Bytes pgSize
  | page, _, [] => page
  | page, sp, a :: as =>
    storeArgs f (storeUser f page (sp - roundUp16 (a.length + 1)) (a ++ [0]))
      (sp - roundUp16 (a.length + 1)) as

theorem le_roundUp16 (n : ℕ) : n ≤ roundUp16 n := by
  unfold roundUp16
  omega

theorem roundUp16_mod (n : ℕ) : roundUp16 n % 16 = 0 := Nat.mul_mod_left _ _

theorem argSize_cons (a : List UInt8) (as : List (List UInt8)) :
    argSize (a :: as) = roundUp16 (a.length + 1) + argSize as := by
  rw [argSize, List.map_cons, List.sum_cons, ← argSize]

theorem argSize_mod (as : List (List UInt8)) : argSize as % 16 = 0 := by
  induction as with
  | nil => rfl
  | cons a as ih =>
    have := roundUp16_mod (a.length + 1)
    rw [argSize_cons]
    omega

theorem pushDown_eq {sp n : ℕ} (hsp : sp < 2 ^ 64) (hmod : sp % 16 = 0) (hn : n ≤ sp) :
    pushDown sp n = sp - roundUp16 n := by
  simp only [pushDown, roundUp16]
  omega

theorem roundUp16_le {sp n : ℕ} (hmod : sp % 16 = 0) (hn : n ≤ sp) : roundUp16 n ≤ sp := by
  unfold roundUp16
  omega

variable {f : ℕ → ℕ} {page : ℕ → Bytes pgSize}

theorem userByte_storeArgs {n sp a : ℕ} {as : List (List UInt8)} (hf : Unshared f n)
    (hsp : sp ≤ n * pgSize) (hsize : argSize as ≤ sp) (ha : a < n * pgSize)
    (hout : a < sp - argSize as ∨ sp ≤ a) :
    userByte (storeArgs f page sp as) f a = userByte page f a := by
  induction as generalizing page sp with
  | nil => rfl
  | cons b as ih =>
    rw [argSize_cons] at hsize hout
    have hle := le_roundUp16 (b.length + 1)
    have hlen : (b ++ [0]).length = b.length + 1 := List.length_append
    rw [storeArgs, ih (by omega) (by omega) (by omega),
      userByte_storeUser_outside page hf (by omega) ha (by omega)]

theorem storeArgs_strings (page : ℕ → Bytes pgSize) {page' : ℕ → Bytes pgSize} {n sp : ℕ}
    {as : List (List UInt8)}
    (hf : Unshared f n) (hsp : sp ≤ n * pgSize) (hsize : argSize as ≤ sp)
    (hpage : ∀ a, sp - argSize as ≤ a → a < sp →
      userByte page' f a = userByte (storeArgs f page sp as) f a) :
    List.Forall₂ (fun q a => userBytes page' f q (a.length + 1) = a ++ [0]) (argPtrs sp as) as := by
  induction as generalizing page sp with
  | nil => exact .nil
  | cons b as ih =>
    rw [argSize_cons] at hsize hpage
    have hle := le_roundUp16 (b.length + 1)
    have hlen : (b ++ [0]).length = b.length + 1 := List.length_append
    refine .cons ?_ (ih _ (by omega) (by omega) fun a ha ha' => hpage a (by omega) (by omega))
    have hstored := @userBytes_storeUser f (b ++ [0]) page _ (sp - roundUp16 (b.length + 1)) hf
      (by omega)
    rw [hlen] at hstored
    rw [← hstored]
    refine List.map_congr_left fun k hk => ?_
    have hk' := List.mem_range.mp hk
    rw [hpage _ (by omega) (by omega), storeArgs]
    exact userByte_storeArgs hf (by omega) (by omega) (by omega) (.inr (by omega))

theorem length_argPtrs (sp : ℕ) (as : List (List UInt8)) : (argPtrs sp as).length = as.length := by
  induction as generalizing sp with
  | nil => rfl
  | cons a as ih => rw [argPtrs, List.length_cons, ih, List.length_cons]

def blocks (sp : ℕ) (as : List (List UInt8)) : List (ℕ × ℕ) :=
  List.zip (argPtrs sp as) (as.map fun a => a.length + 1)

theorem blocks_below (sp : ℕ) (as : List (List UInt8)) (hsize : argSize as ≤ sp) :
    (∀ b ∈ blocks sp as, sp - argSize as ≤ b.1 ∧ b.1 + b.2 ≤ sp) ∧
      (blocks sp as).Pairwise fun b c => c.1 + c.2 ≤ b.1 := by
  induction as generalizing sp with
  | nil => simp [blocks, argPtrs]
  | cons a as ih =>
    rw [argSize_cons] at hsize
    have hle := le_roundUp16 (a.length + 1)
    obtain ⟨hin, hpair⟩ := ih (sp - roundUp16 (a.length + 1)) (by omega)
    rw [argSize_cons]
    simp only [blocks, argPtrs, List.map_cons, List.zip_cons_cons, List.forall_mem_cons,
      List.pairwise_cons]
    refine ⟨⟨by omega, fun b hb => ?_⟩, fun b hb => (hin b hb).2, hpair⟩
    have hb' := hin b hb
    omega

structure ArgAt (s : Kernel) (p : ℕ) (str : List UInt8) : Prop where
  short : str.length < pgSize
  bytes : getBytes (s.page p) 0 (str.length + 1) = str ++ [0]
  nonzero : 0 ∉ str
  known : ∀ i ≤ str.length, s.stale p i = false

theorem ArgAt.frame {s s' : Kernel} {p : ℕ} {str : List UInt8} (h : ArgAt s p str)
    (hsame : SamePage s s' p) : ArgAt s' p str where
  short := h.short
  bytes := by rw [hsame.page]; exact h.bytes
  nonzero := h.nonzero
  known i hi := by rw [hsame.stale]; exact h.known i hi

variable {m : Machine} {deny : ℕ → Bool} {F : Panic → Prop} {s s' : Kernel} {l l' : List ℕ}
  {U R I : Multiset ℕ} {root tf sz : ℕ}

theorem strlen_exact {Q : ℕ → Kernel → Prop} {fuel p i : ℕ} {rest : List UInt8}
    (hp : m.InPool p) (hfit : i + rest.length < pgSize)
    (hbytes : getBytes (s.page p) i (rest.length + 1) = rest ++ [0]) (hrest : 0 ∉ rest)
    (hknown : ∀ j ≤ i + rest.length, s.stale p j = false) (hfuel : rest.length < fuel)
    (hQ : Q rest.length s) : Ensures m deny F (strlen fuel (p * pgSize + i)) Q s := by
  induction rest generalizing fuel i Q with
  | nil =>
    obtain ⟨fuel, rfl⟩ := Nat.exists_eq_add_of_lt hfuel
    have hzero : getField (s.page p) i 1 = 0 := by
      have hbyte : getByte (s.page p) i = 0 := by simpa [getBytes] using hbytes
      simp [getField, hbyte]
    rw [strlen, ensures_bind]
    rw [List.length_nil] at hfit hknown
    refine load_spec hp (fun j _ hj => hknown j (by omega)) (by omega) (by omega) ?_
    rw [if_pos hzero, ensures_pure]
    exact hQ
  | cons c rest ih =>
    rw [List.length_cons] at hfit hbytes hknown hfuel
    obtain ⟨fuel, rfl⟩ : ∃ k, fuel = k + 1 := ⟨fuel - 1, by omega⟩
    rw [getBytes, List.cons_append, List.cons.injEq] at hbytes
    have hc : getField (s.page p) i 1 ≠ 0 := by
      have hne : c ≠ 0 := fun h => hrest (by simp [h])
      simpa [getField, hbytes.1, ← UInt8.toNat_inj] using hne
    rw [strlen, ensures_bind]
    refine load_spec hp (fun j _ hj => hknown j (by omega)) (by omega) (by omega) ?_
    rw [if_neg hc, ensures_bind, Nat.add_assoc]
    refine ih (by omega) hbytes.2 (fun h => hrest (by simp [h])) (fun j hj => hknown j (by omega))
      (by omega) ?_
    rw [ensures_pure]
    exact hQ

theorem UserTable.copyout_all {Q : Bool → Kernel → Prop} {va : ℕ} {src : List UInt8}
    (h : UserTable m s l U R I root f) (hva : va < 2 ^ 64)
    (hall : ∀ a, va ≤ a → a < va + src.length → Writable f (a / pgSize))
    (hQ : ∀ s', s'.page = storeUser f s.page va src → Moves m s l U s' l U → Q true s') :
    Ensures m deny F (copyout (root * pgSize) va src) Q s := by
  refine copyoutFrom_exact h le_rfl fun ok s' j htrans hpage hmove _ => ?_
  have htrans := htrans hva
  have hok : ok = true := by
    refine (htrans.ok_iff_all fun v => writable_lt).mpr fun k hk => ?_
    have hpage := hall (va + k) (by omega) (by omega)
    rwa [vpn_eq ((lt_of_div_lt (writable_lt hpage)).trans (by decide))]
  rw [htrans.ok_iff.mp hok, List.take_length] at hpage
  rw [hok]
  exact hQ s' hpage hmove

/-- The loop that pushes the strings succeeds just if they fit above `stackbase`. -/
theorem pushArgs_exact {Q : Option (ℕ × List ℕ) → Kernel → Prop} {args : List (ℕ × List UInt8)}
    {stackbase argc sp : ℕ} {ustack : List ℕ} (h : UserTable m s l U R I root f)
    (hargs : ∀ a ∈ args, a.1 ∈ R ∧ ArgAt s a.1 a.2) (hargc : argc + args.length ≤ maxArg)
    (hbase : pgSize ≤ stackbase) (hsp : stackbase ≤ sp) (hmod : sp % 16 = 0) (hlt : sp < 2 ^ 64)
    (hstack : ∀ a, stackbase ≤ a → a < sp → Writable f (a / pgSize))
    (hfail : ∀ s', sp < stackbase + argSize (args.map (·.2)) → Moves m s l U s' l U → Q none s')
    (hok : ∀ s', stackbase + argSize (args.map (·.2)) ≤ sp →
      s'.page = storeArgs f s.page sp (args.map (·.2)) → Moves m s l U s' l U →
      Q (some (sp - argSize (args.map (·.2)), ustack ++ argPtrs sp (args.map (·.2)))) s') :
    Ensures m deny F
      (pushArgs (root * pgSize) stackbase (args.map (·.1 * pgSize)) argc sp ustack) Q s := by
  induction args generalizing s argc sp ustack with
  | nil =>
    rw [List.map_nil, pushArgs, ensures_pure]
    have hdone := hok s (by simpa [argSize] using hsp) rfl (.refl h.heap.mono)
    simpa [argSize, argPtrs] using hdone
  | cons a args ih =>
    obtain ⟨p, str⟩ := a
    rw [List.length_cons] at hargc
    simp only [List.map_cons, argSize_cons] at hfail hok ⊢
    obtain ⟨hpR, harg⟩ : p ∈ R ∧ ArgAt s p str := hargs (p, str) (by simp)
    have hpool : m.InPool p :=
      h.heap.pool p (Multiset.mem_add.mpr (.inr (Multiset.mem_add.mpr (.inr hpR))))
    have hshort := harg.short
    have hround := roundUp16_le (n := str.length + 1) hmod (by omega)
    have hge := le_roundUp16 (str.length + 1)
    have hrmod := roundUp16_mod (str.length + 1)
    rw [pushArgs, if_neg (by omega), ensures_bind, ← Nat.add_zero (p * pgSize)]
    refine strlen_exact hpool (by simpa using hshort) harg.bytes harg.nonzero
      (fun j hj => harg.known j (by omega)) hshort ?_
    rw [pushDown_eq hlt hmod (by omega)]
    dsimp only
    by_cases hroom : sp - roundUp16 (str.length + 1) < stackbase
    · rw [if_pos hroom, ensures_pure]
      exact hfail s (by omega) (.refl h.heap.mono)
    · have hlen : (str ++ [0]).length = str.length + 1 := List.length_append
      rw [if_neg hroom, ensures_bind]
      refine take_spec hpool (fun j _ hj => harg.known j (by omega)) (by decide) (by omega) ?_
      rw [harg.bytes, ensures_bind]
      refine h.copyout_all (by omega) (fun b hb hb' => hstack b (by omega) (by omega))
        fun s₁ hpage hmove => ?_
      rw [if_pos rfl]
      refine ih (h.of_moves hmove) (fun b hb => ?_) (by omega) (by omega) (by omega) (by omega)
        (fun b hb hb' => hstack b hb (by omega)) (fun s₂ hover hmove' => ?_)
        fun s₂ hfits hpage' hmove' => ?_
      · obtain ⟨hbR, hb'⟩ := hargs b (by simp [hb])
        exact ⟨hbR, hb'.frame (hmove.keeps h.heap b.1 hbR)⟩
      · exact hfail s₂ (by omega) (hmove.trans hmove')
      · have hdone := hok s₂ (by omega) (by rw [hpage', hpage]; rfl) (hmove.trans hmove')
        rwa [argPtrs, ← List.singleton_append, ← List.append_assoc, ← Nat.sub_sub] at hdone

/-- The arguments of a program on its stack, which is between `base` and `top`. From `sp` on
there are the pointers `ptrs` and a null, each of 8 bytes. -/
structure Arguments (page : ℕ → Bytes pgSize) (f : ℕ → ℕ) (base top sp : ℕ)
    (strs : List (List UInt8)) (ptrs : List ℕ) : Prop where
  aligned : sp % 16 = 0
  array : userBytes page f sp ((strs.length + 1) * 8) = (ptrs ++ [0]).flatMap (bytesOf · 8)
  strings : List.Forall₂ (fun q str => userBytes page f q (str.length + 1) = str ++ [0]) ptrs strs
  inside : ∀ b ∈ (sp, (strs.length + 1) * 8) :: ptrs.zip (strs.map fun str => str.length + 1),
    base ≤ b.1 ∧ b.1 + b.2 ≤ top
  disjoint : ((sp, (strs.length + 1) * 8) :: ptrs.zip (strs.map fun str => str.length + 1)).Pairwise
    fun b c => b.1 + b.2 ≤ c.1 ∨ c.1 + c.2 ≤ b.1

theorem Arguments.congr {page' : ℕ → Bytes pgSize} {base top sp : ℕ} {strs : List (List UInt8)}
    {ptrs : List ℕ} (h : Arguments page f base top sp strs ptrs)
    (hsame : ∀ a, base ≤ a → a < top → userByte page' f a = userByte page f a) :
    Arguments page' f base top sp strs ptrs := by
  have hbytes {q n : ℕ} (hq : base ≤ q) (hn : q + n ≤ top) :
      userBytes page' f q n = userBytes page f q n :=
    List.map_congr_left fun k hk => by
      have hk' := List.mem_range.mp hk
      exact hsame (q + k) (by omega) (by omega)
  refine ⟨h.aligned, ?_, ?_, h.inside, h.disjoint⟩
  · obtain ⟨hbase, htop⟩ := h.inside _ List.mem_cons_self
    rw [hbytes hbase htop]
    exact h.array
  · obtain ⟨hlen, hall⟩ := List.forall₂_iff_zip.mp h.strings
    refine List.forall₂_iff_zip.mpr ⟨hlen, fun {q str} hmem => ?_⟩
    obtain ⟨hbase, htop⟩ := h.inside (q, str.length + 1) (by
      rw [List.zip_map_right]
      exact List.mem_cons_of_mem _ (List.mem_map.mpr ⟨(q, str), hmem, rfl⟩))
    rw [hbytes hbase htop]
    exact hall hmem

theorem length_bytesOf (v k : ℕ) : (bytesOf v k).length = k := by
  induction k generalizing v with
  | zero => rfl
  | succ k ih => rw [bytesOf, List.length_cons, ih]

theorem length_flatMap_bytesOf (ps : List ℕ) (k : ℕ) :
    (ps.flatMap (bytesOf · k)).length = ps.length * k := by
  simp [List.length_flatMap, length_bytesOf]

theorem arguments_storeUser {base top n : ℕ} {strs : List (List UInt8)} (hf : Unshared f n)
    (htop : top ≤ n * pgSize) (hmod : top % 16 = 0) (hfits : base + stackSize strs ≤ top) :
    Arguments (storeUser f (storeArgs f page top strs) (top - stackSize strs)
        ((argPtrs top strs ++ [0]).flatMap (bytesOf · 8)))
      f base top (top - stackSize strs) strs (argPtrs top strs) := by
  have hlen : ((argPtrs top strs ++ [0]).flatMap (bytesOf · 8)).length = (strs.length + 1) * 8 := by
    rw [length_flatMap_bytesOf, List.length_append, length_argPtrs, List.length_singleton]
  have hround := le_roundUp16 ((strs.length + 1) * 8)
  have hrmod := roundUp16_mod ((strs.length + 1) * 8)
  have hamod := argSize_mod strs
  rw [stackSize] at *
  obtain ⟨hin, hpair⟩ := blocks_below top strs (by omega)
  refine ⟨by omega, ?_, ?_, ?_, ?_⟩
  · have hstored := @userBytes_storeUser f ((argPtrs top strs ++ [0]).flatMap (bytesOf · 8))
      (storeArgs f page top strs) n (top - (argSize strs + roundUp16 ((strs.length + 1) * 8))) hf
      (by omega)
    rwa [hlen] at hstored
  · refine storeArgs_strings page hf htop (by omega) fun a ha ha' => ?_
    exact userByte_storeUser_outside _ hf (by omega) (by omega) (.inr (by omega))
  · refine List.forall_mem_cons.mpr ⟨⟨by omega, by omega⟩, fun b hb => ?_⟩
    have hb' := hin b hb
    omega
  · refine List.pairwise_cons.mpr ⟨fun b hb => .inl ?_, hpair.imp fun h => .inr h⟩
    have hb' := hin b hb
    omega

theorem Space.userTable (h : Space m tf s l root sz f I)
    (hheap : Heap m s l (I + userPages f 0 (npages sz) + R)) :
    UserTable m s l (userPages f 0 (npages sz)) (I + R) I root f where
  heap := by
    rwa [add_left_comm, ← add_assoc]
  table := h.table
  inner := Multiset.le_add_right I R
  reaches := h.shape.reaches

theorem Space.unshared (h : Space m tf s l root sz f I) : Unshared f (npages sz) := by
  have hnodup : (userPages f 0 (npages sz)).Nodup := Multiset.nodup_of_le
    ((Multiset.le_add_left _ _).trans (Multiset.le_add_left _ _)) h.heap.nodup
  simp only [userPages, freed, if_true, Multiset.coe_nodup] at hnodup
  intro v hv w hw heq
  exact List.inj_on_of_nodup_map hnodup (by simpa using hv) (by simpa using hw) heq

/-- So does the whole of the stack: the strings and the array of pointers to them. -/
theorem pushStack_exact {Q : Bool × ℕ × ℕ → Kernel → Prop} {args : List (ℕ × List UInt8)}
    {base top n : ℕ} (h : UserTable m s l U R I root f) (hf : Unshared f n)
    (hargs : ∀ a ∈ args, a.1 ∈ R ∧ ArgAt s a.1 a.2) (hlen : args.length ≤ maxArg)
    (hbase : pgSize ≤ base) (hle : base ≤ top) (htop : top ≤ n * pgSize) (hlt : top < 2 ^ 64)
    (hmod : top % 16 = 0) (hstack : ∀ a, base ≤ a → a < top → Writable f (a / pgSize))
    (hfail : ∀ s', top < base + stackSize (args.map (·.2)) → Moves m s l U s' l U →
      Q (false, top, 0) s')
    (hok : ∀ s' sp ptrs, base + stackSize (args.map (·.2)) ≤ top → Moves m s l U s' l U →
      Arguments s'.page f base top sp (args.map (·.2)) ptrs →
      (∀ a < base, userByte s'.page f a = userByte s.page f a) → Q (true, top, sp) s') :
    Ensures m deny F
      (do
        match ← pushArgs (root * pgSize) base (args.map (·.1 * pgSize)) 0 top [] with
        | none => return (false, top, 0)
        | some (sp, ustack) =>
          let sp := pushDown sp (((args.map (·.1 * pgSize)).length + 1) * 8)
          if sp < base then
            return (false, top, 0)
          else if ← copyout (root * pgSize) sp ((ustack ++ [0]).flatMap fun a => bytesOf a 8) then
            return (true, top, sp)
          else
            return (false, top, 0)) Q s := by
  have hsmall : (args.length + 1) * 8 ≤ pgSize := by
    unfold pgSize
    unfold maxArg at hlen
    omega
  have hround := le_roundUp16 ((args.length + 1) * 8)
  have hamod := argSize_mod (args.map (·.2))
  have hsize : stackSize (args.map (·.2)) =
      argSize (args.map (·.2)) + roundUp16 ((args.length + 1) * 8) := by
    rw [stackSize, List.length_map]
  have hlength := length_flatMap_bytesOf (argPtrs top (args.map (·.2)) ++ [0]) 8
  rw [List.length_append, length_argPtrs, List.length_map, List.length_singleton] at hlength
  rw [ensures_bind]
  refine pushArgs_exact h hargs (by omega) hbase hle hmod hlt hstack
    (fun s₁ hover hmove => ?_) fun s₁ hfits hpage hmove => ?_
  · exact (ensures_pure ..).mpr (hfail s₁ (by omega) hmove)
  dsimp only
  rw [List.length_map, List.nil_append, pushDown_eq (by omega) (by omega) (by omega), Nat.sub_sub,
    ← hsize]
  by_cases hsp : top - stackSize (args.map (·.2)) < base
  · rw [if_pos hsp, ensures_pure]
    exact hfail s₁ (by omega) hmove
  rw [if_neg hsp, ensures_bind]
  have hroom : roundUp16 ((args.length + 1) * 8) ≤ top - argSize (args.map (·.2)) :=
    roundUp16_le (by omega) (by omega)
  refine (h.of_moves hmove).copyout_all (by omega)
    (fun b hb hb' => hstack b (by omega) (by omega)) fun s₂ hpage' hmove' => ?_
  rw [if_pos rfl, ensures_pure]
  refine hok s₂ _ (argPtrs top (args.map (·.2))) (by omega) (hmove.trans hmove') ?_ fun a ha => ?_
  · rw [hpage', hpage]
    exact arguments_storeUser hf htop hmod (by omega)
  · rw [hpage', hpage,
      userByte_storeUser_outside _ hf (by omega) (by omega) (.inl (by omega)),
      userByte_storeArgs hf htop (by omega) (by omega) (.inl (by omega))]

structure Stacked (s s' : Kernel) (f f' : ℕ → ℕ) (sz : ℕ) (strs : List (List UInt8)) (ok : Bool)
    (sp : ℕ) : Prop where
  ok_iff : ok = true ↔ stackSize strs ≤ userStack * pgSize
  guard : f' (npages sz) &&& pteU = 0
  kept : ok = true → ∀ a < npages sz * pgSize, userByte s'.page f' a = userByte s.page f a
  arguments : ok = true → ∃ ptrs, Arguments s'.page f' ((npages sz + 1) * pgSize)
    ((npages sz + 2) * pgSize) sp strs ptrs

theorem Flagged.writable {v : ℕ} (h : Flagged (allocFlags pteW) (f v)) (hv : v < 2 ^ 26) :
    Writable f v := by
  obtain ⟨p, -, hp⟩ := h
  have hand {c : ℕ} (hc : c < 1024) : f v &&& c = allocFlags pteW &&& c := by
    rw [hp, pte_and (by decide) hc]
  refine ⟨⟨hv, ?_, ?_⟩, ?_⟩
  · rw [hand (by decide)]
    decide
  · rw [hand (by decide)]
    decide
  · rw [hand (by decide)]
    decide

/-- `exec` finds no memory for a stack, or the arguments do not fit, or they are there. -/
theorem execStack_exact {Q : Bool × ℕ × ℕ → Kernel → Prop} {args : List (ℕ × List UInt8)}
    (h : Space m tf s l root sz f I) (hheap : Heap m s l (I + userPages f 0 (npages sz) + R))
    (hargs : ∀ a ∈ args, a.1 ∈ R ∧ ArgAt s a.1 a.2) (hlen : args.length ≤ maxArg)
    (hnomem : ∀ s' l' I', Moves m s l (I + userPages f 0 (npages sz)) s' l'
        (I' + userPages f 0 (npages sz)) → Space m tf s' l' root (npages sz * pgSize) f I' →
      Refused deny s l s' → Q (false, npages sz * pgSize, 0) s')
    (hstack : ∀ ok sp s' l' f' I', Moves m s l (I + userPages f 0 (npages sz)) s' l'
        (I' + userPages f' 0 (npages sz + 2)) →
      Space m tf s' l' root ((npages sz + 2) * pgSize) f' I' →
      Stacked s s' f f' sz (args.map (·.2)) ok sp → Q (ok, (npages sz + 2) * pgSize, sp) s') :
    Ensures m deny F (execStack (root * pgSize) sz (args.map (·.1 * pgSize))) Q s := by
  have hmax := h.npages_le
  have hle := le_npages sz
  have hnpages : npages (npages sz * pgSize) = npages sz := npages_page _
  have hnpages' : npages ((npages sz + 2) * pgSize) = npages sz + 2 := npages_page _
  have hnew : (npages sz * pgSize + (userStack + 1) * pgSize) % 2 ^ 64 =
      (npages sz + 2) * pgSize := by
    unfold pgSize userStack
    omega
  have hspace : Space m tf s l root (npages sz * pgSize) f I := by
    refine ⟨?_, h.table, ?_⟩
    · rw [hnpages]
      exact h.heap
    · rw [hnpages]
      exact h.shape
  rw [execStack]
  simp only [ensures_bind]
  rw [pgRoundUp_eq (by unfold pgSize at hle; omega), hnew]
  refine hspace.uvmalloc_keeps (Nat.mul_le_mul_right _ (by omega)) (by decide)
    (fun s₁ l₁ I₁ hmove hspace₁ _ hrefused => ?_) fun s₁ l₁ I₁ f₁ hmove hspace₁ hext hsame₁ => ?_
  · rw [hnpages] at hmove
    rw [if_pos rfl, ensures_pure]
    exact hnomem s₁ l₁ I₁ hmove hspace₁ hrefused
  rw [hnpages, hnpages'] at hmove hext
  rw [hnpages] at hsame₁
  have hguard : (npages sz + 2) * pgSize - (userStack + 1) * pgSize = npages sz * pgSize := by
    unfold pgSize userStack
    omega
  have hbase : (npages sz + 2) * pgSize - userStack * pgSize = (npages sz + 1) * pgSize := by
    unfold pgSize userStack
    omega
  have hflag (w : ℕ) (hw : npages sz ≤ w) (hw' : w < npages sz + 2) :
      Flagged (allocFlags pteW) (f₁ w) := hext.leaf w hw (by omega)
  rw [if_neg (by unfold pgSize; omega), ensures_bind, hguard, hbase]
  refine hspace₁.uvmclear (by omega) (hflag _ le_rfl (by omega)) (by decide)
    (userLeaf_pte (by decide) (by decide) (by decide)) (by decide) (by decide)
    fun s₂ f₂ hf₂ hmove₂ hspace₂ hsame₂ => ?_
  rw [hnpages'] at hmove₂ hsame₂
  have hmoves := hmove.trans hmove₂
  have hheap₂ := (hmoves.add hheap).heap
  rw [← hnpages'] at hheap₂
  have huser := hspace₂.userTable hheap₂
  have hwritable (a : ℕ) (ha : (npages sz + 1) * pgSize ≤ a) (ha' : a < (npages sz + 2) * pgSize) :
      Writable f₂ (a / pgSize) := by
    refine Flagged.writable ?_ (by rw [Nat.div_eq_of_lt_le ha ha']; omega)
    rw [Nat.div_eq_of_lt_le ha ha', hf₂, Function.update_of_ne (by omega)]
    exact hflag _ (by omega) (by omega)
  have hclosed : f₂ (npages sz) &&& pteU = 0 := by
    rw [hf₂, Function.update_self, pte_and (by decide) (by decide)]
    decide
  have hkept (a : ℕ) (ha : a < npages sz * pgSize) :
      userByte s₂.page f₂ a = userByte s.page f a := by
    have hlow : a / pgSize < npages sz := Nat.div_lt_of_lt_mul (by rwa [Nat.mul_comm])
    have hf₁ : f₁ (a / pgSize) = f (a / pgSize) := hext.other _ (by omega)
    have hsame := (hsame₁ _ hlow).trans (hf₁ ▸ hsame₂ _ (by omega))
    rw [userByte, userByte, hf₂, Function.update_of_ne (by omega), hf₁, hsame.page]
  have hroom : (npages sz + 1) * pgSize + userStack * pgSize = (npages sz + 2) * pgSize := by
    unfold userStack
    ring
  refine pushStack_exact huser hspace₂.unshared (fun b hb => ?_) hlen
    (Nat.le_mul_of_pos_left _ (by omega)) (by omega) (by rw [hnpages']) (by unfold pgSize; omega)
    (by unfold pgSize; omega) hwritable (fun s₃ hover hmove₃ => ?_)
    fun s₃ sp ptrs hfits hmove₃ harguments hlow => ?_
  · obtain ⟨hbR, hb'⟩ := hargs b hb
    exact ⟨Multiset.mem_add.mpr (.inr hbR), hb'.frame (hmoves.keeps hheap b.1 hbR)⟩
  · obtain ⟨hmoves₃, hspace₃⟩ := hspace₂.of_moves hmove₃
    rw [hnpages'] at hmoves₃
    refine hstack false 0 s₃ l₁ f₂ I₁ (hmoves.trans hmoves₃) hspace₃ ⟨?_, hclosed, nofun, nofun⟩
    exact iff_of_false nofun (by omega)
  · obtain ⟨hmoves₃, hspace₃⟩ := hspace₂.of_moves hmove₃
    rw [hnpages'] at hmoves₃
    refine hstack true sp s₃ l₁ f₂ I₁ (hmoves.trans hmoves₃) hspace₃
      ⟨iff_of_true rfl (by omega), hclosed, fun _ a ha => ?_, fun _ => ⟨ptrs, harguments⟩⟩
    rw [hlow a (ha.trans (Nat.mul_lt_mul_of_pos_right (by omega) (by decide)))]
    exact hkept a ha

theorem fetchaddr_spec {Q : Option ℕ → Kernel → Prop} {i : Pid} {addr : ℕ}
    (h : UserTable m s l U R I root f) (hproc : (s.tables.proc i).pagetable = root * pgSize)
    (hQ : ∀ r, (∀ v, r = some v → v < 2 ^ 64) → Q r s) :
    Ensures m deny F (fetchaddr i addr) Q s := by
  rw [fetchaddr, ensures_bind, ensures_getProc, hproc]
  split_ifs with haddr
  · exact (ensures_pure ..).mpr (hQ none nofun)
  · rw [ensures_bind]
    refine copyinFrom_exact h le_rfl fun ok j _ => ?_
    refine (ensures_pure ..).mpr (hQ _ fun v hv => ?_)
    split_ifs at hv
    rw [← Option.some.inj hv]
    exact numAt_lt _ 0 8

theorem argAt_write {p : ℕ} {str : List UInt8} (hshort : str.length < pgSize) (hzero : 0 ∉ str) :
    ArgAt (s.write p (putBytes (s.page p) 0 (str ++ [0]))
      fun j => 0 ≤ j ∧ j < 0 + (str ++ [0]).length) p str := by
  have hlen : (str ++ [0]).length = str.length + 1 := List.length_append
  refine ⟨hshort, ?_, hzero, fun j hj => ?_⟩
  · have hpage (b : Bytes pgSize) (w : ℕ → Bool) : (s.write p b w).page p = b :=
      Function.update_self ..
    rw [hpage, ← hlen]
    exact getBytes_putBytes_self _ _ _ (by omega)
  · simp [Kernel.write]
    omega

theorem UserTable.of_others {P P' : Multiset ℕ} (h : UserTable m s l U R I root f)
    (hheap : Heap m s l (P + (U + R))) (hmove : Moves m s l P s' l' P') :
    UserTable m s' l' U R I root f where
  heap := (hmove.add hheap).heap.of_le (Multiset.le_add_left _ _)
  table := h.table.frame fun q hq => hmove.keeps hheap q
    (Multiset.mem_add.mpr (.inr (Multiset.mem_of_le h.inner hq)))
  inner := h.inner
  reaches := h.reaches

theorem cutString_eq_true {bs cs : List UInt8} (h : cutString bs = (cs, true)) :
    ∃ str, cs = str ++ [0] ∧ 0 ∉ str := by
  rw [cutString] at h
  split at h
  · rw [← (Prod.mk.inj h).1]
    exact terminated_takeWhile bs
  · exact absurd (Prod.mk.inj h).2 Bool.false_ne_true

/-- The loop of `sys_exec`: its pages hold the strings that it has fetched so far. -/
theorem fetchArgs_exact {Q : Bool × List ℕ → Kernel → Prop} {i : Pid} {uargv k n : ℕ}
    (args : List (ℕ × List UInt8)) (h : UserTable m s l U R I root f)
    (hheap : Heap m s l (↑(args.map (·.1)) + (U + R)))
    (hproc : (s.tables.proc i).pagetable = root * pgSize)
    (hargs : ∀ a ∈ args, ArgAt s a.1 a.2)
    (hQ : ∀ ok (args' : List (ℕ × List UInt8)) s' l',
      Moves m s l ↑(args.map (·.1)) s' l' ↑(args'.map (·.1)) →
      (ok = true → args'.length < args.length + k ∧ ∀ a ∈ args', ArgAt s' a.1 a.2) →
      Q (ok, args'.map (·.1 * pgSize)) s') :
    Ensures m deny F (fetchArgs i uargv k n (args.map (·.1 * pgSize))) Q s := by
  induction k generalizing s l n args with
  | zero =>
    rw [fetchArgs, ensures_pure]
    exact hQ false args s l (.refl hheap.mono) nofun
  | succ k ih =>
    rw [fetchArgs, ensures_bind]
    refine fetchaddr_spec h hproc fun r hr => ?_
    match r with
    | none =>
      exact (ensures_pure ..).mpr (hQ false args s l (.refl hheap.mono) nofun)
    | some uarg =>
      dsimp only
      by_cases hzero : uarg = 0
      · rw [if_pos hzero, ensures_pure]
        exact hQ true args s l (.refl hheap.mono) fun _ => ⟨by omega, hargs⟩
      rw [if_neg hzero, ensures_bind]
      refine kalloc_spec hheap.zero (fun s₁ hmove _ => ?_) fun p l₁ s₁ hp hmove => ?_
      · rw [if_pos rfl, ensures_pure]
        exact hQ false args s₁ l (hmove.spared hheap.mono) nofun
      have hheap₁ : Heap m s l (0 + (U + R)) := by
        rw [zero_add]
        exact h.heap
      rw [if_neg hp.addr_ne_zero, ensures_bind, ensures_getProc, hmove.tables, hproc, ensures_bind]
      refine copyinstrFrom_exact (h.of_others hheap₁ hmove) le_rfl (hr uarg rfl)
        fun ok' j htrans => ?_
      generalize hcut : cutString _ = r
      obtain ⟨cs, ok⟩ := r
      have hlen : cs.length ≤ pgSize := by
        have hle := length_cutString_le (userBytes s₁.page f uarg j)
        rw [hcut, length_userBytes] at hle
        exact hle.trans htrans.le
      dsimp only
      rw [ensures_bind]
      refine put_page_spec hp hlen ?_
      generalize hs₂ : s₁.write p _ _ = s₂
      have hwrite : Moves m s₁ l₁ {p} s₂ l₁ {p} := hs₂ ▸ hmove.heap.write (by simp) _ _
      -- the pages of the arguments, with the new one
      have hpages (str : List UInt8) : ((args ++ [(p, str)]).map (·.1) : Multiset ℕ) =
          {p} + ↑(args.map (·.1)) := by
        rw [List.map_append, ← Multiset.coe_add, add_comm]
        rfl
      have hmap (str : List UInt8) : args.map (·.1 * pgSize) ++ [p * pgSize] =
          (args ++ [(p, str)]).map (·.1 * pgSize) := by
        rw [List.map_append, List.map_singleton]
      have hmoves := (hmove.trans hwrite).beside hheap.mono
      by_cases hok : ok = true
      · subst hok
        obtain ⟨str, rfl, hnonzero⟩ := cutString_eq_true hcut
        rw [List.length_append, List.length_singleton] at hlen
        rw [if_pos rfl, hmap str]
        rw [← hpages str] at hmoves
        refine ih _ (h.of_others hheap hmoves) (hmoves.add hheap).heap ?_ (fun b hb => ?_)
          fun ok' args' s' l' hmove' hargs' => ?_
        · rw [hmoves.tables]
          exact hproc
        · rcases List.mem_append.mp hb with hb | hb
          · refine (hargs b hb).frame ((hmove.trans hwrite).keeps_beside hheap.mono b.1 ?_)
            exact Multiset.mem_coe.mpr (List.mem_map_of_mem hb)
          · rw [List.mem_singleton.mp hb, ← hs₂]
            exact argAt_write (by omega) hnonzero
        · refine hQ ok' args' s' l' (hmoves.trans hmove') fun hok' => ?_
          obtain ⟨hlt, hall⟩ := hargs' hok'
          rw [List.length_append, List.length_singleton] at hlt
          exact ⟨by omega, hall⟩
      · rw [if_neg hok, ensures_pure, hmap []]
        rw [← hpages []] at hmoves
        exact hQ false _ s₂ l₁ hmoves nofun

end Xv6.Vm
