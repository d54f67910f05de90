import Xv6.SyscallTracing
import Xv6.ProcessLifecycle

/-!
# Traces of whole process trees

The mask of every process follows from the history of forks and of its own `trace` calls. What
a process has printed is one line for each system call that returned while the bit of
the call was set in that mask, and such a bit goes back to a `trace` call of the process
itself or of one of its ancestors.
-/

namespace Xv6.Tracing
open TransitionSystems SleepWakeupMonitors KillableMonitors MonitorAssertions Process Function

/-- The system call that a process has entered and not left, with the registers on entry. -/
def openCall : List Entry → ℕ → Option (Sys × Regs)
  | [], _ => none
  | .entered a c tf :: h, w => if a = w then some (c, tf) else openCall h w
  | .returned a _ :: h, w | .forked a _ _ :: h, w => if a = w then none else openCall h w
  | .traced _ :: h, w => openCall h w

/-- The argument of the latest `trace` call of a process, or else the mask that its parent had at
the fork, and 0 for the first process. -/
def maskOf : List Entry → ℕ → BitVec 32
  | [], _ => 0
  | .traced a :: h, w =>
    if a = w then
      match openCall h w with
      | some (.trace, tf) => int tf.a0
      | _ => 0
    else maskOf h w
  | .forked a b _ :: h, w => if a = w then maskOf h b else maskOf h w
  | .entered _ _ _ :: h, w | .returned _ _ :: h, w => maskOf h w

def pidOf : List Entry → ℕ → ℤ
  | [], _ => 1
  | .forked a _ pid :: h, w => if a = w then pid else pidOf h w
  | .traced _ :: h, w | .entered _ _ _ :: h, w | .returned _ _ :: h, w => pidOf h w

structure Line where
  pid : ℤ
  call : Sys
  args : List UInt64
  value : UInt64

def spaced : List String → String
  | [] => ""
  | [a] => a
  | a :: b :: l => a ++ " " ++ spaced (b :: l)

def shown (c : Sys) (args : List UInt64) : List String :=
  (args.take c.argc).map fun x => decimal (int x)

namespace Line

def text (l : Line) : String :=
  toString l.pid ++ ": syscall " ++ l.call.name ++ "(" ++ spaced (shown l.call l.args) ++
    (") -> " ++ decimal (int l.value) ++ "\n")

end Line

/-- The lines for a process, the latest first: one for each system call that returned while the
mask had the bit of the call, with the registers on entry and the value. -/
def lines : List Entry → ℕ → List Line
  | [], _ => []
  | .returned a v :: h, w =>
    if a = w then
      match openCall h w with
      | some (c, tf) =>
        if (maskOf h w).getLsbD c.num then ⟨pidOf h w, c, tf.args, v⟩ :: lines h w else lines h w
      | none => lines h w
    else lines h w
  | .traced _ :: h, w | .entered _ _ _ :: h, w | .forked _ _ _ :: h, w => lines h w

def textOf : List Line → String
  | [] => ""
  | l :: ls => textOf ls ++ l.text

def printed : List Output → ℕ → String
  | [], _ => ""
  | o :: c, w => printed c w ++ if o.who = w ∧ o.trace = true then o.text else ""

def Thread.remaining (th : Thread) : String :=
  let tail := ") -> " ++ decimal (int th.trapframe.a0) ++ "\n"
  match th.point with
  | .arg c args i => spaced ((shown c args).drop i) ++ tail
  | .sep c args i =>
    (if i + 1 < c.argc then " " else "") ++ (spaced ((shown c args).drop (i + 1)) ++ tail)
  | _ => ""

def Entry.who : Entry → ℕ
  | .forked a _ _ | .entered a _ _ | .traced a | .returned a _ => a

/-- Every `trace` call and every return is that of an open call. -/
def Paired : List Entry → Prop
  | [] => True
  | .traced a :: h => (∃ tf, openCall h a = some (.trace, tf)) ∧ Paired h
  | .returned a _ :: h => (∃ c tf, openCall h a = some (c, tf)) ∧ Paired h
  | _ :: h => Paired h

def Parent (h : List Entry) (child parent : ℕ) : Prop := ∃ pid, Entry.forked child parent pid ∈ h

/-- A process has called `trace` with a mask that has the bit. -/
def Enables (h : List Entry) (a num : ℕ) : Prop :=
  ∃ h₁ h₂ tf, h = h₁ ++ .traced a :: h₂ ∧ openCall h₂ a = some (.trace, tf) ∧
    (int tf.a0).getLsbD num = true

theorem other {e : Entry} {w : ℕ} (hw : e.who ≠ w) (h : List Entry) :
    openCall (e :: h) w = openCall h w ∧ maskOf (e :: h) w = maskOf h w ∧
      pidOf (e :: h) w = pidOf h w ∧ lines (e :: h) w = lines h w := by
  cases e <;> simp only [Entry.who] at hw <;> simp [openCall, maskOf, pidOf, lines, hw]

theorem Enables.cons {h : List Entry} {a num : ℕ} (e : Entry) (ha : Enables h a num) :
    Enables (e :: h) a num := by
  obtain ⟨h₁, h₂, tf, rfl, hopen, hbit⟩ := ha
  exact ⟨e :: h₁, h₂, tf, rfl, hopen, hbit⟩

def Inherits (h : List Entry) (w num : ℕ) : Prop :=
  ∃ a, Relation.ReflTransGen (Parent h) w a ∧ Enables h a num

theorem Inherits.cons {h : List Entry} {w num : ℕ} (e : Entry) (hw : Inherits h w num) :
    Inherits (e :: h) w num := by
  obtain ⟨a, ha, hen⟩ := hw
  refine ⟨a, Relation.ReflTransGen.mono (fun x y hxy => ?_) _ _ ha, hen.cons e⟩
  obtain ⟨pid, hpid⟩ := hxy
  exact ⟨pid, List.mem_cons_of_mem e hpid⟩

theorem inherits_of_bit {h : List Entry} {w num : ℕ} (hbit : (maskOf h w).getLsbD num = true) :
    Inherits h w num := by
  induction h generalizing w with
  | nil => simp [maskOf] at hbit
  | cons e h ih =>
    cases e with
    | traced a =>
      simp only [maskOf] at hbit
      split at hbit
      · rename_i haw
        subst haw
        split at hbit
        · rename_i tf hopen
          exact ⟨a, .refl, [], h, tf, rfl, hopen, hbit⟩
        · simp at hbit
      · exact (ih hbit).cons _
    | forked a b pid =>
      simp only [maskOf] at hbit
      split at hbit
      · rename_i haw
        subst haw
        obtain ⟨c, hc, hen⟩ := (ih hbit).cons (.forked a b pid)
        exact ⟨c, .head ⟨pid, List.mem_cons_self⟩ hc, hen⟩
      · exact (ih hbit).cons _
    | entered a c tf => exact (ih hbit).cons _
    | returned a v => exact (ih hbit).cons _

theorem inherits_of_line {h : List Entry} {w : ℕ} {l : Line} (hl : l ∈ lines h w) :
    Inherits h w l.call.num := by
  induction h with
  | nil => cases hl
  | cons e h ih =>
    cases e with
    | returned a v =>
      simp only [lines] at hl
      split at hl
      · split at hl
        · split at hl
          · rename_i c tf hopen hbit
            rcases List.mem_cons.mp hl with rfl | hl
            · exact (inherits_of_bit hbit).cons _
            · exact (ih hl).cons _
          · exact (ih hl).cons _
        · exact (ih hl).cons _
      · exact (ih hl).cons _
    | forked a b pid => exact (ih hl).cons _
    | entered a c tf => exact (ih hl).cons _
    | traced a => exact (ih hl).cons _

theorem Paired.returned {h₁ h₂ : List Entry} {w : ℕ} {v : UInt64}
    (h : Paired (h₁ ++ .returned w v :: h₂)) : ∃ c tf, openCall h₂ w = some (c, tf) := by
  induction h₁ with
  | nil => exact h.1
  | cons e h₁ ih =>
    cases e with
    | traced a => exact ih h.2
    | returned a v => exact ih h.2
    | forked a b pid => exact ih h
    | entered a c tf => exact ih h

theorem sshiftRight_and_one {m : BitVec 32} {i : ℕ} (hi : i < 32) :
    m.sshiftRight i &&& 1 ≠ 0 ↔ m.getLsbD i = true := by
  rw [← not_iff_not, not_not, BitVec.eq_of_getLsbD_eq_iff]
  constructor
  · intro h
    have h0 := h 0 (by decide)
    simpa [BitVec.getElem_sshiftRight, hi] using h0
  · intro h j hj
    cases j with
    | zero => simpa [BitVec.getElem_sshiftRight, hi] using h
    | succ j => simp [BitVec.getLsbD_one]

theorem spaced_cons (a : String) (l : List String) :
    spaced (a :: l) = a ++ ((if l = [] then "" else " ") ++ spaced l) := by
  cases l with
  | nil => simp [spaced]
  | cons b l => simp [spaced, String.append_assoc]

theorem Sys.argc_le (c : Sys) : c.argc ≤ 6 := by cases c <;> decide

theorem spaced_shown (c : Sys) {args : List UInt64} (hlen : args.length = 6) {i : ℕ}
    (hi : i < c.argc) :
    spaced ((shown c args).drop i) = decimal (int (args.getD i 0)) ++
      ((if i + 1 < c.argc then " " else "") ++ spaced ((shown c args).drop (i + 1))) := by
  have hc := c.argc_le
  have hshown : (shown c args).length = c.argc := by simp [shown, hlen, hc]
  rw [List.drop_eq_getElem_cons (hshown ▸ hi), spaced_cons]
  congr 1
  · simp [shown, List.getD_eq_getElem?_getD, show i < args.length by omega]
  · congr 1
    simp only [List.drop_eq_nil_iff, hshown]
    split_ifs <;> first | rfl | omega

theorem lookup_eq_some (tf : Regs) (c : Sys) :
    lookup tf = some c ↔ (c.num : ℤ) = (int tf.a7).toInt := by
  simp only [lookup]
  constructor
  · intro h
    split_ifs at h
    simpa using List.find?_some h
  · intro h
    rw [← h]
    cases c <;> rfl

theorem Sys.num_lt (c : Sys) : c.num < 32 := by cases c <;> decide

variable {n : ℕ}

def Thread.Fits (runs : Bool) (call : Option (Sys × Regs)) (th : Thread) : Prop :=
  match th.point with
  | .user => True
  | .handler c args => runs = true ∧ call = some (c, th.trapframe) ∧ args = th.trapframe.args
  | .table c args => ∃ tf, call = some (c, tf) ∧ args = tf.args
  | .test c args => runs = true ∧ ∃ tf, call = some (c, tf) ∧ args = tf.args
  | .arg _ args _ | .sep _ args _ => runs = true ∧ args.length = 6
  | .unknown => runs = true

variable {call : Option (Sys × Regs)}

theorem Thread.Fits.mono {runs runs' : Bool} {th : Thread} (h : th.Fits runs call)
    (hruns : runs = true → runs' = true) : th.Fits runs' call := by
  unfold Thread.Fits at h ⊢
  split at h
  · trivial
  · exact ⟨hruns h.1, h.2⟩
  · exact h
  · exact ⟨hruns h.1, h.2⟩
  · exact ⟨hruns h.1, h.2⟩
  · exact ⟨hruns h.1, h.2⟩
  · exact hruns h

theorem Thread.Fits.remaining {th : Thread} (h : th.Fits false call) : th.remaining = "" := by
  unfold Thread.Fits at h
  unfold Thread.remaining
  cases hp : th.point <;> simp only [hp] at h <;> first | rfl | cases h.1

structure Inv [NeZero n] (s : Kernel n) : Prop where
  reached : Reached s.procs
  inj : Function.Injective s.life
  fresh : ∀ x, s.life x < s.lives
  mask : ∀ x, s.traceMask x = maskOf s.history (s.life x)
  pid : ∀ x, (s.procs.shared.proc x).state ≠ .unused →
    (s.procs.shared.proc x).pid = pidOf s.history (s.life x)
  fits : ∀ x, (s.thread x).Fits (s.runs x) (openCall s.history (s.life x))
  text : ∀ x, printed s.console (s.life x) ++ (s.thread x).remaining =
    textOf (lines s.history (s.life x))
  gone : ∀ w, (∀ x, s.life x ≠ w) → printed s.console w = textOf (lines s.history w)
  paired : Paired s.history

section Own

variable [NeZero n] {s : Kernel n} {p : Fin n}

theorem runs_live (h : Inv s) (hp : s.runs p = true) :
    (s.procs.shared.proc p).state = .live := by
  refine h.reached.lifecycle.related.thread p fun hdead => ?_
  rw [Kernel.runs] at hp
  rw [State.control] at hdead
  split at hp
  · rename_i l hl
    rw [hl] at hdead
    rw [show l = .dead from hdead] at hp
    cases hp
  · cases hp

variable {t : Kernel n}

/-- A thread moves on by itself: it may change its mask, its trapframe and its name, print part of a
line, and add to the history. -/
theorem Inv.own (h : Inv s) (p : Fin n) (es : List Entry) (hprocs : t.procs = s.procs)
    (hlife : t.life = s.life) (hlives : t.lives = s.lives) {m : BitVec 32}
    (hmask : t.traceMask = update s.traceMask p m) {th : Thread}
    (hthread : t.thread = update s.thread p th) (hhistory : t.history = es ++ s.history)
    (hes : ∀ e ∈ es, e.who = s.life p)
    (hothers : ∀ w, w ≠ s.life p → printed t.console w = printed s.console w)
    (hm : m = maskOf t.history (s.life p))
    (hpid : pidOf t.history (s.life p) = pidOf s.history (s.life p))
    (hfits : th.Fits (s.runs p) (openCall t.history (s.life p)))
    (hprinted : printed t.console (s.life p) ++ th.remaining = textOf (lines t.history (s.life p)))
    (hpaired : Paired t.history) : Inv t := by
  have hother (w : ℕ) (hw : w ≠ s.life p) : openCall t.history w = openCall s.history w ∧
      maskOf t.history w = maskOf s.history w ∧ pidOf t.history w = pidOf s.history w ∧
      lines t.history w = lines s.history w := by
    rw [hhistory]
    clear hhistory
    induction es with
    | nil => exact ⟨rfl, rfl, rfl, rfl⟩
    | cons e es ih =>
      have he : e.who ≠ w := by
        rw [hes e List.mem_cons_self]
        exact hw.symm
      obtain ⟨h₁, h₂, h₃, h₄⟩ := ih fun e he => hes e (List.mem_cons_of_mem _ he)
      obtain ⟨k₁, k₂, k₃, k₄⟩ := other he (es ++ s.history)
      exact ⟨k₁.trans h₁, k₂.trans h₂, k₃.trans h₃, k₄.trans h₄⟩
  have hruns (x : Fin n) : t.runs x = s.runs x := by
    rw [Kernel.runs, hprocs]
    rfl
  have hne {x : Fin n} (hx : x ≠ p) : s.life x ≠ s.life p := fun heq => hx (h.inj heq)
  refine ⟨hprocs ▸ h.reached, hlife ▸ h.inj, fun x => ?_, fun x => ?_, fun x hx => ?_, fun x => ?_,
    fun x => ?_, fun w hw => ?_, hpaired⟩
  · rw [hlife, hlives]
    exact h.fresh x
  · rw [hlife, hmask]
    by_cases hx : x = p
    · subst hx
      rw [update_self, hm]
    · rw [update_of_ne hx, (hother _ (hne hx)).2.1]
      exact h.mask x
  · rw [hprocs] at hx ⊢
    rw [hlife, h.pid x hx]
    by_cases hxp : x = p
    · subst hxp
      exact hpid.symm
    · exact (hother _ (hne hxp)).2.2.1.symm
  · rw [hlife, hthread, hruns]
    by_cases hx : x = p
    · subst hx
      rwa [update_self]
    · rw [update_of_ne hx, (hother _ (hne hx)).1]
      exact h.fits x
  · rw [hlife, hthread]
    by_cases hx : x = p
    · subst hx
      rwa [update_self]
    · rw [update_of_ne hx, (hother _ (hne hx)).2.2.2, hothers _ (hne hx)]
      exact h.text x
  · rw [hlife] at hw
    rw [(hother w (hw p).symm).2.2.2, hothers w (hw p).symm]
    exact h.gone w hw

theorem ecall_inv (h : Inv s) {tf : Regs} (hs : ecall s p tf = some t) : Inv t := by
  simp only [ecall] at hs
  split at hs
  · rename_i hp
    have htext := h.text p
    rw [Thread.remaining, hp.2] at htext
    split at hs
    · cases hs
      refine h.own p [_] rfl rfl rfl (update_eq_self _ _).symm rfl rfl
        (by simp [Entry.who]) (fun _ _ => rfl) (h.mask p) rfl ?_ htext h.paired
      refine ⟨hp.1, ?_, rfl⟩
      simp [Kernel.record, Kernel.setThread, openCall]
    · cases hs
      exact h.own p [] rfl rfl rfl (update_eq_self _ _).symm rfl rfl
        (by simp) (fun _ _ => rfl) (h.mask p) rfl hp.1 htext h.paired
  · cases hs

theorem result_inv (h : Inv s) (hs : result s p = some t) : Inv t := by
  simp only [result] at hs
  split at hs
  · rename_i c args l hpoint hphase
    obtain ⟨r, hr, rfl⟩ := Option.map_eq_some_iff.mp hs
    have hfits := h.fits p
    rw [Thread.Fits, hpoint] at hfits
    have htext := h.text p
    rw [Thread.remaining, hpoint] at htext
    refine h.own p [] rfl rfl rfl (update_eq_self _ _).symm rfl rfl
      (by simp) (fun _ _ => rfl) (h.mask p) rfl ⟨?_, hfits⟩ htext h.paired
    rw [Kernel.runs, hphase]
    cases l <;> first | rfl | cases hr
  · cases hs

theorem handle_inv (h : Inv s) {value : UInt64} {tf : Regs} {name : String}
    (hs : handle s p value tf name = some t) : Inv t := by
  have hfits := h.fits p
  have htext := h.text p
  rw [Thread.Fits] at hfits
  rw [Thread.remaining] at htext
  simp only [handle] at hs
  split at hs
  · cases hs
  · cases hs
  · cases hs
  · rename_i args hpoint
    rw [hpoint] at hfits htext
    cases hs
    refine h.own p [_] rfl rfl rfl rfl rfl rfl
      (by simp [Entry.who]) (fun _ _ => rfl) ?_ rfl ⟨hfits.1, _, hfits.2.1, hfits.2.2⟩
      htext ⟨⟨_, hfits.2.1⟩, h.paired⟩
    simp [Kernel.record, Kernel.setThread, maskOf, hfits.2.1]
  · rename_i args hpoint
    rw [hpoint] at hfits htext
    cases hs
    exact h.own p [] rfl rfl rfl (update_eq_self _ _).symm rfl rfl
      (by simp) (fun _ _ => rfl) (h.mask p) rfl ⟨hfits.1, _, hfits.2.1, hfits.2.2⟩ htext h.paired
  · rename_i c args _ _ _ _ _ hpoint
    rw [hpoint] at hfits htext
    cases hs
    exact h.own p [] rfl rfl rfl (update_eq_self _ _).symm rfl rfl
      (by simp) (fun _ _ => rfl) (h.mask p) rfl ⟨hfits.1, _, hfits.2.1, hfits.2.2⟩ htext h.paired
  · cases hs

theorem go_inv (h : Inv s) (hs : go s p = some t) : Inv t := by
  have hfits := h.fits p
  have htext := h.text p
  rw [Thread.Fits] at hfits
  rw [Thread.remaining] at htext
  simp only [go] at hs
  split at hs
  · rename_i c args hpoint
    rw [hpoint] at hfits htext
    obtain ⟨hruns, tf, hopen, rfl⟩ := hfits
    have hpid := h.pid p (by simp [runs_live h hruns])
    split at hs
    · rename_i hbit
      rw [sshiftRight_and_one c.num_lt] at hbit
      have hmask : (maskOf s.history (s.life p)).getLsbD c.num = true := h.mask p ▸ hbit
      cases hs
      refine h.own p [_] rfl rfl rfl (update_eq_self _ _).symm rfl rfl
        (by simp [Entry.who]) (fun w hw => ?_) (h.mask p) rfl ⟨hruns, rfl⟩ ?_
        ⟨⟨c, tf, hopen⟩, h.paired⟩
      · simp [Kernel.record, Kernel.print, Kernel.goto, Kernel.setThread, printed, hw.symm]
      · simp only [Kernel.record, Kernel.print, Kernel.goto, Kernel.setThread, printed, lines,
          hopen, hmask, if_true, textOf, ← htext, Line.text, Thread.remaining, List.drop_zero,
          ← hpid]
        simp [String.append_assoc]
    · rename_i hbit
      rw [sshiftRight_and_one c.num_lt] at hbit
      have hmask : ¬(maskOf s.history (s.life p)).getLsbD c.num = true := h.mask p ▸ hbit
      cases hs
      refine h.own p [_] rfl rfl rfl (update_eq_self _ _).symm rfl rfl
        (by simp [Entry.who]) (fun _ _ => rfl) (h.mask p) rfl trivial ?_
        ⟨⟨c, tf, hopen⟩, h.paired⟩
      simp only [Kernel.record, Kernel.goto, Kernel.setThread, lines, hopen, hmask, if_true,
        Thread.remaining]
      exact htext
  · rename_i c args i hpoint
    rw [hpoint] at hfits htext
    split at hs
    · rename_i hi
      cases hs
      refine h.own p [] rfl rfl rfl (update_eq_self _ _).symm rfl rfl
        (by simp) (fun w hw => ?_) (h.mask p) rfl hfits ?_ h.paired
      · simp [Kernel.print, Kernel.goto, Kernel.setThread, printed, hw.symm]
      · simp only [spaced_shown c hfits.2 hi] at htext
        simp only [Kernel.print, Kernel.goto, Kernel.setThread, printed, Thread.remaining, ← htext]
        simp [String.append_assoc]
    · rename_i hi
      have hdrop : (shown c args).drop i = [] := by
        simp only [shown, List.drop_eq_nil_iff, List.length_map, List.length_take]
        omega
      cases hs
      refine h.own p [] rfl rfl rfl (update_eq_self _ _).symm rfl rfl
        (by simp) (fun w hw => ?_) (h.mask p) rfl trivial ?_ h.paired
      · simp [Kernel.print, Kernel.goto, Kernel.setThread, printed, hw.symm]
      · simp only [hdrop, spaced] at htext
        simp only [Kernel.print, Kernel.goto, Kernel.setThread, printed, Thread.remaining, ← htext]
        simp
  · rename_i c args i hpoint
    rw [hpoint] at hfits htext
    split at hs
    · rename_i hi
      cases hs
      refine h.own p [] rfl rfl rfl (update_eq_self _ _).symm rfl rfl
        (by simp) (fun w hw => ?_) (h.mask p) rfl hfits ?_ h.paired
      · simp [Kernel.print, Kernel.goto, Kernel.setThread, printed, hw.symm]
      · simp only [if_pos hi] at htext
        simp only [Kernel.print, Kernel.goto, Kernel.setThread, printed, Thread.remaining, ← htext]
        simp [String.append_assoc]
    · rename_i hi
      cases hs
      refine h.own p [] rfl rfl rfl (update_eq_self _ _).symm rfl rfl
        (by simp) (fun _ _ => rfl) (h.mask p) rfl hfits ?_ h.paired
      simp only [if_neg hi, String.empty_append] at htext
      exact htext
  · rename_i hpoint
    rw [hpoint] at htext
    cases hs
    refine h.own p [] rfl rfl rfl (update_eq_self _ _).symm rfl rfl
      (by simp) (fun w hw => ?_) (h.mask p) rfl trivial ?_ h.paired
    · simp [Kernel.print, Kernel.setThread, printed]
    · simpa [Kernel.print, Kernel.setThread, printed, Thread.remaining] using htext
  · cases hs

end Own

section Table

variable [NeZero n] {s : Processes n} {t : Processes n} {e : KEvent (Fin n) Choice}

theorem forks_kept (h : Process.Step s e t) (hrun : ∀ p k, e ≠ .step (.run p k)) :
    t.shared.forks = s.shared.forks := by
  cases e with
  | kill q =>
    simp only [Process.Step, KillableMonitors.next] at h
    split at h <;> cases h
    rfl
  | step e =>
    cases e with
    | run p k => exact absurd rfl (hrun p k)
    | rouse p => cases h
    | move p =>
      simp only [Process.Step, KillableMonitors.next, Monitor.next] at h
      split at h
      · cases h
      split at h
      · rename_i l hl
        have hmove := move_counters p l s.shared
        change MoveAll _ _ ((monitor n).move p l s.shared) at hmove
        split at h <;> cases h
        · simp_all [MoveAll]
        · simp_all [MoveAll]
        · rfl
        · simp_all [MoveAll]
        · rfl
      · cases h
    | _ =>
      simp only [Process.Step, KillableMonitors.next, Monitor.next] at h
      repeat' split at h
      all_goals cases h
      all_goals rfl

theorem forkOf_some {p x : Fin n} (h : Process.Step s e t) (hf : forkOf s e = some (p, x)) :
    e = .step (.run p (.next true)) ∧ (∃ todo, s.phase p = .outside (.alloc (x :: todo))) ∧
      (s.shared.proc x).state = .unused ∧ t.shared = s.shared.allocproc x true := by
  unfold forkOf at hf
  split at hf
  · rename_i q
    split at hf
    · rename_i y todo hphase
      split at hf
      · rename_i hunused
        cases hf
        obtain ⟨l, l', sh', hl, hrun, rfl⟩ := run_next h
        rw [hphase] at hl
        cases hl
        simp only [monitor, run, hunused, if_true] at hrun
        cases hrun
        exact ⟨rfl, ⟨todo, hphase⟩, hunused, rfl⟩
      · cases hf
    · cases hf
  · cases hf

theorem forkOf_none (h : Process.Step s e t) (hs : Lifecycle s) (hf : forkOf s e = none) {x : Fin n}
    (hx : (t.shared.proc x).state ≠ .unused) :
    (s.shared.proc x).state ≠ .unused ∧ (t.shared.proc x).pid = (s.shared.proc x).pid := by
  have hlive {q : Fin n} {l : Control n} (hl : s.control q = l) (hne : l ≠ .dead) :
      (s.shared.proc q).state = .live := hs.related.thread q (hl ▸ hne)
  cases slotStep_of_step h x with
  | same eq => exact ⟨eq ▸ hx, by rw [eq]⟩
  | faulted user eq =>
    rw [eq] at hx ⊢
    exact ⟨hx, rfl⟩
  | killed ev eq =>
    rw [eq] at hx ⊢
    exact ⟨hx, rfl⟩
  | reaped reaps => simp [reaps.2.1, Proc.free] at hx
  | reparented q status todo parent at_ eq =>
    rw [eq] at hx ⊢
    exact ⟨hx, rfl⟩
  | died status at_ eq =>
    rw [eq]
    exact ⟨by simp [hlive at_ (by simp)], rfl⟩
  | allocated unused forks eq =>
    by_cases hrun : ∃ p k, e = .step (.run p k)
    · obtain ⟨p, k, rfl⟩ := hrun
      obtain ⟨l, l', sh', hl, hrun, rfl⟩ := run_next h
      have hsame (hsh : sh'.forks = s.shared.forks) : False := by
        simp only [hsh] at forks
        omega
      cases ran_of_run hrun with
      | alloc y todo unused' =>
        cases k with
        | next memory =>
          simp only [monitor, run, unused', if_true] at hrun
          cases memory with
          | true => simp [forkOf, hl, unused'] at hf
          | false => cases hrun
        | _ => cases hrun
      | fail y todo unused' =>
        by_cases hxy : x = y
        · subst hxy
          simp [Table.allocproc, Table.modify, Proc.free] at hx
        · simp [Table.allocproc, Table.modify, hxy, unused] at hx
      | _ => exact (hsame rfl).elim
    · have hkept := forks_kept h fun p k he => hrun ⟨p, k, he⟩
      omega
  | failed unused eq => simp [eq, Proc.free] at hx
  | adopted q pid at_ eq =>
    rw [eq] at hx ⊢
    exact ⟨hx, rfl⟩
  | published q pid at_ eq =>
    have hused : (s.shared.proc x).state = .used := hs.related.forking q x (by rw [at_]; rfl)
    rw [eq]
    exact ⟨by simp [hused], rfl⟩

end Table

section Tables

variable [NeZero n] {s t : Kernel n} {e : KEvent (Fin n) Choice}

omit [NeZero n] in
theorem runs_iff {q : Fin n} : s.runs q = true ↔ ∃ l, s.procs.phase q = .outside l ∧
    l.inUser = true := by
  rw [Kernel.runs]
  cases s.procs.phase q <;> simp

theorem runs_kept (h : Process.Step s.procs e t.procs) {q : Fin n} (hq : s.runs q = true)
    (hrun : ∀ k, e ≠ .step (.run q k)) : t.runs q = true := by
  obtain ⟨l, hl, huser⟩ := runs_iff.mp hq
  refine runs_iff.mpr ⟨l, outside_next h hl hrun ?_, huser⟩
  cases l <;> first | rfl | cases huser

theorem begins_fits {p : Fin n} {k : Choice} {pt : Point} {runs : Bool}
    (h : Process.Step s.procs (.step (.run p k)) t.procs)
    (hfits : (s.thread p).Fits (s.runs p) call) (hb : begins (s.thread p) k = some pt) :
    { s.thread p with point := pt : Thread }.Fits runs call ∧
      { s.thread p with point := pt : Thread }.remaining = (s.thread p).remaining := by
  have hsame (hk : k = .start ∨ ∃ m, k = .next m) :
      { s.thread p with point := (s.thread p).point : Thread }.Fits runs call := by
    have hruns : s.runs p = false := by
      by_contra hruns
      obtain ⟨l, hl, huser⟩ := runs_iff.mp (by simpa using hruns)
      obtain ⟨l₁, l', sh', hl₁, hrun, -⟩ := run_next h
      rw [hl] at hl₁
      cases hl₁
      rcases hk with rfl | ⟨m, rfl⟩ <;> cases l <;>
        first | (cases huser; done) | cases hrun
    rw [hruns] at hfits
    exact hfits.mono nofun
  cases k with
  | fork =>
    simp only [begins] at hb
    split at hb
    · rename_i args hpoint
      cases hb
      rw [Thread.Fits, hpoint] at hfits
      exact ⟨⟨_, hfits.2⟩, by rw [Thread.remaining, Thread.remaining, hpoint]⟩
    · cases hb
  | wait addr =>
    simp only [begins] at hb
    split at hb
    · rename_i args hpoint
      split at hb <;> cases hb
      rw [Thread.Fits, hpoint] at hfits
      exact ⟨⟨_, hfits.2⟩, by rw [Thread.remaining, Thread.remaining, hpoint]⟩
    · cases hb
  | exit status =>
    simp only [begins] at hb
    split at hb
    · rename_i args hpoint
      split at hb <;> cases hb
      rw [Thread.Fits, hpoint] at hfits
      exact ⟨⟨_, hfits.2⟩, by rw [Thread.remaining, Thread.remaining, hpoint]⟩
    · rename_i hpoint
      split at hb <;> cases hb
      exact ⟨trivial, by rw [Thread.remaining, Thread.remaining, hpoint]⟩
    · cases hb
  | fault =>
    simp only [begins] at hb
    split at hb <;> cases hb
    rename_i hpoint
    exact ⟨trivial, by rw [Thread.remaining, Thread.remaining, hpoint]⟩
  | start =>
    cases hb
    exact ⟨hsame (.inl rfl), rfl⟩
  | next m =>
    cases hb
    exact ⟨hsame (.inr ⟨m, rfl⟩), rfl⟩

theorem advance_fits (h : Inv s) {s₁ : Kernel n} (hs : s.advance e = some s₁)
    (hstep : Process.Step s.procs e t.procs) :
    s₁ = { s with thread := s₁.thread } ∧ ∀ q,
      (s₁.thread q).Fits (t.runs q) (openCall s.history (s.life q)) ∧
        (s₁.thread q).remaining = (s.thread q).remaining := by
  have hother {q : Fin n} (hq : ∀ k, e ≠ .step (.run q k)) :
      (s.thread q).Fits (t.runs q) (openCall s.history (s.life q)) :=
    (h.fits q).mono fun hruns => runs_kept hstep hruns hq
  unfold Kernel.advance at hs
  split at hs
  · rename_i p k
    obtain ⟨pt, hpt, rfl⟩ := Option.map_eq_some_iff.mp hs
    refine ⟨rfl, fun q => ?_⟩
    by_cases hq : q = p
    · subst hq
      simp only [Kernel.goto, Kernel.setThread, update_self]
      exact begins_fits hstep (h.fits q) hpt
    · simp only [Kernel.goto, Kernel.setThread, update_of_ne hq]
      refine ⟨hother fun k' hk => ?_, trivial⟩
      cases hk
      exact hq rfl
  · rename_i hne
    cases hs
    exact ⟨rfl, fun q => ⟨hother fun k => hne q k, rfl⟩⟩

theorem Inv.kept (h : Inv s) (hstep : Process.Step s.procs e t.procs)
    (hf : forkOf s.procs e = none) (ht : t = { s with procs := t.procs, thread := t.thread })
    (hth : ∀ q, (t.thread q).Fits (t.runs q) (openCall s.history (s.life q)) ∧
      (t.thread q).remaining = (s.thread q).remaining) : Inv t := by
  rw [ht]
  refine ⟨h.reached.step hstep, h.inj, h.fresh, h.mask, fun x hx => ?_, fun x => ?_, fun x => ?_,
    h.gone, h.paired⟩
  · obtain ⟨hused, hpid⟩ := forkOf_none hstep h.reached.lifecycle hf hx
    exact hpid.trans (h.pid x hused)
  · exact (hth x).1
  · rw [(hth x).2]
    exact h.text x

theorem Inv.birth (h : Inv s) (hstep : Process.Step s.procs e t.procs) {p x : Fin n}
    (hf : forkOf s.procs e = some (p, x)) (th : Fin n → Thread)
    (ht : t = { ({ s with thread := th } : Kernel n).birth p x with procs := t.procs })
    (hth : ∀ q, (th q).Fits (t.runs q) (openCall s.history (s.life q)) ∧
      (th q).remaining = (s.thread q).remaining) : Inv t := by
  obtain ⟨-, -, hunused, hshared⟩ := forkOf_some hstep hf
  have hlife (y : Fin n) : s.life y ≠ s.lives := (h.fresh y).ne
  have hother {y : Fin n} (hy : y ≠ x) := other (w := s.life y)
    (e := .forked s.lives (s.life p) s.procs.shared.nextpid) (hlife y).symm s.history
  have hnone : printed s.console s.lives = textOf (lines s.history s.lives) :=
    h.gone s.lives hlife
  have hquiet : (s.thread x).remaining = "" := by
    have hruns : s.runs x = false := by
      by_contra hruns
      have hlive := runs_live h (by simpa using hruns)
      rw [hunused] at hlive
      cases hlive
    exact Thread.Fits.remaining (hruns ▸ h.fits x)
  rw [ht]
  refine ⟨h.reached.step hstep, ?_, fun y => ?_, fun y => ?_, fun y hy => ?_, fun y => ?_,
    fun y => ?_, fun w hw => ?_, h.paired⟩
  · intro y z hyz
    simp only [Kernel.birth] at hyz
    by_cases hy : y = x <;> by_cases hz : z = x
    · rw [hy, hz]
    · subst hy
      rw [update_self, update_of_ne hz] at hyz
      exact absurd hyz.symm (hlife z)
    · subst hz
      rw [update_self, update_of_ne hy] at hyz
      exact absurd hyz (hlife y)
    · rw [update_of_ne hy, update_of_ne hz] at hyz
      exact h.inj hyz
  · simp only [Kernel.birth]
    by_cases hy : y = x
    · subst hy
      rw [update_self]
      omega
    · rw [update_of_ne hy]
      have := h.fresh y
      omega
  · simp only [Kernel.birth]
    by_cases hy : y = x
    · subst hy
      rw [update_self, update_self, maskOf, if_pos rfl]
      exact h.mask p
    · rw [update_of_ne hy, update_of_ne hy, (hother hy).2.1]
      exact h.mask y
  · simp only [Kernel.birth, hshared] at hy ⊢
    by_cases hyx : y = x
    · subst hyx
      simp [Table.allocproc, Table.modify, pidOf]
    · rw [update_of_ne hyx, (hother hyx).2.2.1]
      simp only [Table.allocproc, Table.modify, if_true, update_of_ne hyx] at hy ⊢
      exact h.pid y hy
  · simp only [Kernel.birth]
    by_cases hy : y = x
    · subst hy
      simp only [update_self]
      trivial
    · simp only [update_of_ne hy, (hother hy).1]
      exact (hth y).1
  · simp only [Kernel.birth]
    by_cases hy : y = x
    · subst hy
      rw [update_self, update_self]
      simpa [Thread.remaining, lines] using hnone
    · rw [update_of_ne hy, update_of_ne hy, (hother hy).2.2.2, (hth y).2]
      exact h.text y
  · simp only [Kernel.birth] at hw ⊢
    by_cases hwx : w = s.life x
    · subst hwx
      have htext := h.text x
      rw [hquiet, String.append_empty] at htext
      exact htext
    · refine h.gone w fun y hy => ?_
      have hne := hw y
      by_cases hyx : y = x
      · subst hyx
        exact hwx hy.symm
      · rw [update_of_ne hyx] at hne
        exact hne hy

theorem tableStep_inv (h : Inv s) (hs : tableStep s e = some t) : Inv t := by
  obtain ⟨s₁, hs₁, hs⟩ := Option.bind_eq_some_iff.mp hs
  obtain ⟨procs, hstep, rfl⟩ := Option.map_eq_some_iff.mp hs
  obtain ⟨heq, hth⟩ := advance_fits (t := { s₁.copies e with procs := procs }) h hs₁ hstep
  have hprocs : s₁.procs = s.procs := by rw [heq]
  cases hf : forkOf s.procs e with
  | none =>
    have hcopies : s₁.copies e = s₁ := by rw [Kernel.copies, hprocs, hf]
    rw [hcopies] at hth ⊢
    refine h.kept hstep hf ?_ hth
    rw [heq]
  | some px =>
    obtain ⟨p, x⟩ := px
    have hcopies : s₁.copies e = s₁.birth p x := by rw [Kernel.copies, hprocs, hf]
    rw [hcopies] at hth ⊢
    refine h.birth hstep hf s₁.thread ?_ hth
    rw [heq]

theorem Inv.step (h : Inv s) {a : Act n} (hs : Step s a t) : Inv t := by
  cases a with
  | table e => exact tableStep_inv h hs
  | ecall p tf => exact ecall_inv h hs
  | handle p value tf name => exact handle_inv h hs
  | result p => exact result_inv h hs
  | go p => exact go_inv h hs

theorem inv_boot (n : ℕ) [NeZero n] : Inv (boot n) where
  reached := .of_init rfl
  inj := Fin.val_injective
  fresh x := x.isLt
  mask _ := rfl
  pid x hx := by
    have h0 : x = 0 := by
      by_contra hne
      simp [boot, Process.boot, Proc.free, hne] at hx
    subst h0
    simp [boot, Process.boot, pidOf]
  fits _ := trivial
  text _ := rfl
  gone _ _ := rfl
  paired := trivial

/-- For every run and any reuse of slots: the numbers of `syscall.h` select the calls; the mask of
a process is what the history of its `trace` calls and of the forks says; what a process has
printed, together with the rest of a line that it is about to print, is the text of its lines,
one for each call that returned with its bit set, and a process that is gone has printed all of
it; every return is that of a call which the same process entered; and the bit of a line was
enabled by the process or an ancestor. -/
theorem tracing_exact (s : Kernel n) (h : Reachable (fun s => s = boot n) Step s) :
    Function.Injective s.life ∧
      (∀ tf c, lookup tf = some c ↔ (c.num : ℤ) = (int tf.a7).toInt) ∧
      (∀ x, s.traceMask x = maskOf s.history (s.life x)) ∧
      (∀ x, printed s.console (s.life x) ++ (s.thread x).remaining =
        textOf (lines s.history (s.life x))) ∧
      (∀ w, (∀ x, s.life x ≠ w) → printed s.console w = textOf (lines s.history w)) ∧
      (∀ h₁ w v h₂, s.history = h₁ ++ .returned w v :: h₂ →
        ∃ c tf, openCall h₂ w = some (c, tf)) ∧
      (∀ w, ∀ l ∈ lines s.history w, ∃ a, Relation.ReflTransGen (Parent s.history) w a ∧
        Enables s.history a l.call.num) := by
  have hinv : Inv s := h.invariant (by rintro s rfl; exact inv_boot n) fun _ _ _ hs => hs.step
  exact ⟨hinv.inj, lookup_eq_some, hinv.mask, hinv.text, hinv.gone,
    fun h₁ w v h₂ heq => (heq ▸ hinv.paired).returned, fun w l hl => inherits_of_line hl⟩

end Tables

def traceFork : List (Act 2) :=
  [.table (.step (.run 0 .start)), .ecall 0 ⟨2, 0, 0, 0, 0, 0, 22⟩,
    .handle 0 0 ⟨0, 0, 0, 0, 0, 0, 0⟩ "", .go 0, .ecall 0 ⟨7, 8, 0, 0, 0, 0, 1⟩,
    .table (.step (.run 0 .fork)), .table (.step (.run 0 (.next true))),
    .table (.step (.run 0 (.next true))), .table (.step (.acquire 0)), .table (.step (.move 0)),
    .table (.step (.run 0 (.next true))), .result 0, .go 0, .go 0]

theorem tracing_exact_traceFork :
    ∃ s : Kernel 2, Reachable (fun s => s = boot 2) Step s ∧ s.traceMask 1 = 2 ∧
      maskOf s.history (s.life 1) = 2 ∧ (lines s.history (s.life 0)).length = 1 ∧
      printed s.console (s.life 0) = textOf (lines s.history (s.life 0)) := by
  have hrun : (exec next (boot 2) traceFork).any (fun s => s.traceMask 1 = 2 ∧
      (lines s.history (s.life 0)).length = 1 ∧ (s.thread 0).point = .user) = true := by
    decide +kernel
  obtain ⟨s, hs, hmask, hlines, hpoint⟩ := exists_of_any hrun
  have hreach : Reachable (fun s => s = boot 2) Step s := reachable_of_exec hs
  obtain ⟨-, -, hmaskOf, htext, -⟩ := tracing_exact s hreach
  refine ⟨s, hreach, hmask, (hmaskOf 1).symm.trans hmask, hlines, ?_⟩
  have h0 := htext 0
  rwa [Thread.remaining, hpoint, String.append_empty] at h0

end Xv6.Tracing
