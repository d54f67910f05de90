import Xv6.InterruptMasking
import Xv6.SchedulerSteps

/-!
# Interrupt nesting survives context switches

On every CPU `noff` is the number of sections that the running thread has open, and while it is
positive interrupts are off. A thread gives up its CPU with exactly one section open, that of its
lock, which the scheduler closes and opens again, perhaps on another CPU.
-/

namespace Xv6.Interrupts
open Scheduler TransitionSystems Function

variable {C L : Type} {n : ℕ}

/-- The points in `scheduler`, and in `sched` behind its checks, where a thread has no section
open but that of the lock of a process. -/
def switches : Pc n → Bool
  | .check _ | .picked _ | .swtchIn _ | .back _ | .unlock _ | .swtchOut .. | .swtchLoad _
  | .resume .. => true
  | .between _ | .inside .. | .release .. | .enter .. | .change .. | .sched .. => false

/-- The points where the variable of `sched` has the `intena` of the thread. -/
def away : Pc n → Bool
  | .swtchOut .. | .swtchLoad _ | .resume .. => true
  | _ => false

def opened (pc : Pc n) : ℕ := if pc.holds.isSome then 1 else 0

namespace Phase

/-- A section that `push_off` has counted for a lock still to be taken, or that `pop_off` has
not counted off yet. -/
def opened : Phase L n → ℕ
  | .spin _ | .popOff => 1
  | .code | .intrOff .. | .count .. | .restore => 0

/-- Whether interrupts are off whatever `noff` is. -/
def masked : Phase L n → Bool
  | .count .. | .restore => true
  | .code | .intrOff .. | .spin _ | .popOff => false

def lock : Phase L n → Option (Lock L n)
  | .intrOff lk _ | .count lk _ => lk
  | .spin lk => some lk
  | .code | .popOff | .restore => none

end Phase

structure Running (cpu : Cpu) (th : Thread L n) (pc : Pc n) : Prop where
  noff : cpu.noff = th.depth + opened pc + th.phase.opened
  masked : 0 < cpu.noff ∨ th.phase.masked = true → cpu.sie = false
  old : ∀ lk old, th.phase = .intrOff lk old → old = cpu.sie
  counted : ∀ lk old, th.phase = .count lk old → cpu.noff = 0 → th.left = some old
  waits : ∀ k, th.phase.lock = some (.proc k) →
    (∃ w, pc = .between w) ∧ (k = .go → th.depth = 0)
  alone : switches pc = true → th.phase = .code ∧ th.depth = 0
  fresh : ∀ t, pc = .resume t .forkret → th.left = none
  left : pc.executes ≠ none → 0 < cpu.noff ∨ th.phase = .restore → ∀ b, th.left = some b →
    (if away pc then th.intena else cpu.intena) = b

structure Frame.Stopped (f : Frame L n) : Prop where
  depth : f.depth = 0
  spie : f.spie = true
  phase : f.phase = .code ∨ ∃ lk, f.phase = .intrOff lk true

structure Parked (th : Thread L n) : Prop where
  phase : th.phase = .code
  depth : th.depth = 0
  intena : ∀ b, th.left = some b → th.intena = b

structure Nested (m : Machine C L n) : Prop where
  base : Exclusive m.base
  running : ∀ c, Running (m.cpu c) (m.thread (m.current c)) (m.base.pc c)
  scheduler : ∀ c, (m.base.pc c).executes ≠ none →
    (m.thread (.scheduler c)).phase = .code ∧ (m.thread (.scheduler c)).depth = 0
  parked : ∀ p, (∀ c, (m.base.pc c).executes ≠ some p) → m.base.context p ≠ .forkret →
    Parked (m.thread (.process p))
  frames : ∀ t, ∀ f ∈ (m.thread t).frames, f.Stopped
  calm : m.panicked ≠ some .popOffInterruptible ∧ m.panicked ≠ some .popOff

section Running
variable {cpu : Cpu} {th : Thread L n} {pc : Pc n}

theorem Running.stopped (h : Running cpu th pc) (hsie : cpu.sie = true) :
    Frame.Stopped ⟨th.phase, th.depth, cpu.sie⟩ := by
  have hnot : ¬ (0 < cpu.noff ∨ th.phase.masked = true) := by
    intro hm
    rw [h.masked hm] at hsie
    cases hsie
  have hnoff := h.noff
  refine ⟨by grind, hsie, ?_⟩
  have hold := h.old
  cases hphase : th.phase <;> grind [Phase.masked, Phase.opened]

theorem Running.trap (h : Running cpu th pc) (hsie : cpu.sie = true) (fs : List (Frame L n)) :
    Running { cpu with sie := false } { th with phase := .code, depth := 0, frames := fs } pc := by
  have hnot : ¬ (0 < cpu.noff ∨ th.phase.masked = true) := by
    intro hm
    rw [h.masked hm] at hsie
    cases hsie
  have hnoff := h.noff
  constructor <;>
    grind [Phase.masked, Phase.opened, Phase.lock, Running]

theorem Running.sret {w : Party n} (h : Running cpu th (.between w)) (hphase : th.phase = .code)
    (hdepth : th.depth = 0) {f : Frame L n} (hf : f.Stopped) (fs : List (Frame L n)) :
    Running { cpu with sie := f.spie } { th with phase := f.phase, depth := f.depth, frames := fs }
      (.between w) := by
  have hnoff := h.noff
  obtain ⟨hd, hs, hp⟩ := hf
  constructor <;>
    grind [Phase.masked, Phase.opened, Phase.lock, opened, Pc.holds, switches]

theorem Running.away_of_phase (h : Running cpu th pc) (hphase : th.phase ≠ .code) :
    away pc = false := by
  have halone := h.alone
  cases pc <;> grind [away, switches]

theorem calls_switches {handler : Bool} (h : calls handler pc = true) : switches pc = false := by
  cases pc <;> first | rfl | cases h

theorem wants_spec {k : Choice n} (h : wants th pc k = true) :
    (∃ w, pc = .between w) ∧ (k = .go → th.depth = 0) := by
  unfold wants at h
  split at h
  · simp only [Bool.and_eq_true, beq_iff_eq] at h
    exact ⟨⟨_, rfl⟩, fun _ => h.2⟩
  · exact ⟨⟨_, rfl⟩, by simp⟩
  · exact ⟨⟨_, rfl⟩, by simp⟩
  · exact ⟨⟨_, rfl⟩, by simp⟩
  · cases h

variable {lk : Option (Lock L n)}

theorem mayPush_spec (h : mayPush th pc lk = true) : switches pc = false ∧
      ∀ k, lk = some (.proc k) → (∃ w, pc = .between w) ∧ (k = .go → th.depth = 0) := by
  cases lk with
  | none => exact ⟨calls_switches h, by simp⟩
  | some lk =>
    cases lk with
    | other l => exact ⟨calls_switches h, by simp⟩
    | proc k =>
      obtain ⟨⟨w, rfl⟩, hdepth⟩ := wants_spec h
      refine ⟨rfl, ?_⟩
      rintro k' ⟨⟩
      exact ⟨⟨w, rfl⟩, hdepth⟩

theorem maySet_spec {bit : Bool} (h : maySet th bit pc = true) :
    (∃ w, pc = .between w) ∧ th.depth = 0 := by
  unfold maySet at h
  split at h
  · simp only [Bool.and_eq_true, beq_iff_eq] at h
    exact ⟨⟨_, rfl⟩, h.2⟩
  · simp only [Bool.and_eq_true, beq_iff_eq] at h
    exact ⟨⟨_, rfl⟩, h.1.1.2⟩
  · cases h

theorem Running.pushOff (h : Running cpu th pc) (hphase : th.phase = .code)
    (hpush : mayPush th pc lk = true) :
    Running cpu { th with phase := .intrOff lk cpu.sie } pc := by
  obtain ⟨hswitch, hproc⟩ := mayPush_spec hpush
  constructor <;>
    grind [Phase.masked, Phase.opened, Phase.lock, Running]

theorem Running.intrOff (h : Running cpu th pc) {old : Bool} (hphase : th.phase = .intrOff lk old) :
    Running { cpu with sie := false }
      { th with
        phase := .count lk old
        left := if cpu.noff = 0 then some cpu.sie else th.left } pc := by
  have hold := h.old lk old hphase
  constructor <;>
    grind [Phase.masked, Phase.opened, Phase.lock, Running, switches]

theorem Running.count (h : Running cpu th pc) {old : Bool} (hphase : th.phase = .count lk old)
    {th' : Thread L n}
    (hth : lk = none ∧ th' = { th with phase := .code, depth := th.depth + 1 } ∨
      ∃ l, lk = some l ∧ th' = { th with phase := .spin l }) :
    Running
      { cpu with
        intena := if cpu.noff = 0 then old else cpu.intena
        noff := cpu.noff + 1 } th' pc := by
  have hcounted := h.counted lk old hphase
  have haway := h.away_of_phase (by simp [hphase])
  obtain ⟨rfl, rfl⟩ | ⟨l, rfl, rfl⟩ := hth
  all_goals
    constructor <;>
      grind [Phase.masked, Phase.opened, Phase.lock, Running, switches]

theorem Running.popOff (h : Running cpu th pc) (hphase : th.phase = .popOff) :
    Running { cpu with noff := cpu.noff - 1 } { th with phase := .restore } pc := by
  have hnoff := h.noff
  constructor <;>
    grind [Phase.masked, Phase.opened, Phase.lock, Running]

theorem Running.restore (h : Running cpu th pc) (hphase : th.phase = .restore) :
    Running { cpu with sie := cpu.noff = 0 ∧ cpu.intena ∨ cpu.sie } { th with phase := .code }
      pc := by
  constructor <;>
    grind [Phase.masked, Phase.opened, Phase.lock, Running]

theorem Running.close (h : Running cpu th pc) (hphase : th.phase = .code)
    (hswitch : switches pc = false) (hdepth : 0 < th.depth) :
    Running cpu { th with phase := .popOff, depth := th.depth - 1 } pc := by
  constructor <;>
    grind [Phase.masked, Phase.opened, Phase.lock, Running]

theorem Running.taken (h : Running cpu th pc) {l : L} (hphase : th.phase = .spin (.other l)) :
    Running cpu { th with phase := .code, depth := th.depth + 1 } pc := by
  constructor <;>
    grind [Phase.masked, Phase.opened, Phase.lock, Running]

theorem Running.intr {w : Party n} (h : Running cpu th (.between w)) (hphase : th.phase = .code)
    (hdepth : th.depth = 0) (bit : Bool) : Running { cpu with sie := bit } th (.between w) := by
  have hnoff := h.noff
  constructor <;>
    grind [Phase.masked, Phase.opened, Phase.lock, opened, Pc.holds, Running]

structure Stays (pc pc' : Pc n) : Prop where
  opened : opened pc' = opened pc
  switches : switches pc' = true → switches pc = true
  away : away pc' = away pc
  executes : pc'.executes = pc.executes
  fresh : ∀ t, pc' ≠ .resume t .forkret

theorem Running.move (h : Running cpu th pc) {pc' : Pc n} (hphase : th.phase = .code)
    (hstays : Stays pc pc') : Running cpu th pc' := by
  obtain ⟨hopened, hswitch, haway, hexecutes, hfresh⟩ := hstays
  constructor <;>
    grind [Phase.lock, Running]

theorem Running.unlock (h : Running cpu th pc) {pc' : Pc n} (hphase : th.phase = .code)
    (hopen : opened pc = 1) (hopen' : opened pc' = 0) (hswitch : switches pc' = false)
    (haway : away pc' = away pc) (hexecutes : pc'.executes = pc.executes) :
    Running cpu { th with phase := .popOff } pc' := by
  constructor <;>
    grind [Phase.masked, Phase.opened, Phase.lock, Running, switches]

theorem Running.locked {w : Party n} (h : Running cpu th (.between w)) {k : Choice n}
    (hphase : th.phase = .spin (.proc k)) {pc' : Pc n} (hopen : opened pc' = 1)
    (hswitch : switches pc' = true → k = .go) (haway : away pc' = false)
    (hexecutes : pc'.executes = w.thread?) :
    Running cpu { th with phase := .code } pc' := by
  have hwaits := h.waits k
  constructor <;>
    grind [Phase.masked, Phase.opened, Phase.lock, opened, Pc.holds, Pc.executes, away, Running]

theorem Running.sched {t p : Fin n} {k : Leave} (h : Running cpu th (.sched t p k))
    (hphase : th.phase = .code) (hnoff : cpu.noff = 1) (x : Context n) :
    Running cpu { th with intena := cpu.intena } (.swtchOut t p x) := by
  have hsum := h.noff
  constructor <;>
    grind [Phase.masked, Phase.opened, Phase.lock, opened, Pc.holds, Pc.executes, away, Running]

theorem Running.resume {t : Fin n} {x : Context n} (h : Running cpu th (.resume t x)) :
    Running { cpu with intena := Machine.resumed cpu th x } { th with phase := .popOff }
      (.between (.thread t)) := by
  obtain ⟨hphase, hdepth⟩ := h.alone rfl
  have hsum := h.noff
  have hfresh := h.fresh t
  have hleft := h.left (by simp [Pc.executes])
  cases x <;>
    constructor <;>
    grind [Phase.masked, Phase.opened, Phase.lock, opened, Pc.holds, Pc.executes, away, switches,
      Machine.resumed, Running]

end Running

section Steps
variable [DecidableEq C] {m : Machine C L n} {c : C}

omit [DecidableEq C] in
theorem current_congr {m' : Machine C L n}
    (h : (m'.base.pc c).executes = (m.base.pc c).executes) : m'.current c = m.current c := by
  simp only [Machine.current, h]

omit [DecidableEq C] in
theorem current_eq_process {p : Fin n} :
    m.current c = .process p ↔ (m.base.pc c).executes = some p := by
  unfold Machine.current
  split <;> simp [*]

omit [DecidableEq C] in
theorem current_eq_scheduler {d : C} :
    m.current c = .scheduler d ↔ (m.base.pc c).executes = none ∧ c = d := by
  unfold Machine.current
  split <;> simp [*]

omit [DecidableEq C] in
theorem current_ne (h : Exclusive m.base) {d : C} (hd : d ≠ c) : m.current d ≠ m.current c := by
  intro he
  cases ht : m.current c with
  | scheduler e =>
    rw [ht] at he
    have hce := (current_eq_scheduler.mp ht).2
    have hde := (current_eq_scheduler.mp he).2
    exact hd (hde.trans hce.symm)
  | process p =>
    rw [ht] at he
    exact hd (h.once d c p (owns_of_executes (current_eq_process.mp he))
      (owns_of_executes (current_eq_process.mp ht)))

variable {th : Thread L n}

theorem Nested.put (h : Nested m) {b : System C n} (hbase : Exclusive b) (hmoves : Moves m.base c b)
    {pc : Pc n} (hpc : b.pc c = pc) (hexecutes : pc.executes = (m.base.pc c).executes) {cpu : Cpu}
    (hrun : Running cpu th pc) (hframes : ∀ f ∈ th.frames, f.Stopped) (holder : L → Option C) :
    Nested { m.put c cpu th with base := b, holder := holder } := by
  subst hpc
  have hexec (d : C) : (b.pc d).executes = (m.base.pc d).executes := by
    by_cases hd : d = c
    · rw [hd, hexecutes]
    · rw [hmoves.other d hd]
  refine ⟨hbase, fun d => ?_, fun d hd => ?_, fun p hp hx => ?_, fun t f hf => ?_, h.calm⟩
  · rw [current_congr (hexec d)]
    by_cases hd : d = c
    · subst hd
      simpa [Machine.put] using hrun
    · simpa [Machine.put, hd, current_ne h.base hd, hmoves.other d hd] using h.running d
  · have hne : Tid.scheduler d ≠ m.current c := by
      intro he
      obtain ⟨hnone, rfl⟩ := current_eq_scheduler.mp he.symm
      exact hd (hexecutes.trans hnone)
    simp only [Machine.put, update_of_ne hne]
    exact h.scheduler d (hexec d ▸ hd)
  · have hnot (d : C) : (m.base.pc d).executes ≠ some p := hexec d ▸ hp d
    have hne : Tid.process p ≠ m.current c := fun he => hnot c (current_eq_process.mp he.symm)
    simp only [Machine.put, update_of_ne hne]
    refine h.parked p hnot ?_
    obtain hsame | hfork | hp := hmoves.context p
    · exact hsame ▸ hx
    · exact absurd hfork hx
    · exact absurd hp (hnot c)
  · by_cases ht : t = m.current c
    · subst ht
      simp only [Machine.put, update_self] at hf
      exact hframes f hf
    · simp only [Machine.put, update_of_ne ht] at hf
      exact h.frames t f hf

theorem Nested.inner (h : Nested m) {cpu : Cpu} (hrun : Running cpu th (m.base.pc c))
    (hframes : ∀ f ∈ th.frames, f.Stopped) : Nested (m.put c cpu th) :=
  h.put h.base (.refl _ _) rfl rfl hrun hframes m.holder

theorem put_self (m : Machine C L n) (c : C) : m.put c (m.cpu c) (m.thread (m.current c)) = m := by
  simp [Machine.put]

theorem Nested.quiet [NeZero n] (h : Nested m) (hphase : (m.thread (m.current c)).phase = .code)
    {pc : Pc n} (hpc : m.base.pc c = pc)
    (hstays : ∀ pc' b, Acts m.base c .go pc pc' b → Stays pc pc') {m' : Machine C L n}
    (hs : (m.base.next c .go).map (fun b => { m with base := b }) = some m') : Nested m' := by
  subst hpc
  obtain ⟨b, hb, rfl⟩ := Option.map_eq_some_iff.mp hs
  obtain ⟨pc', hacts, hpc', hmoves⟩ := h.base.goes rfl hb
  have hstay := hstays pc' b hacts
  have hrun := (h.running c).move hphase hstay
  have hput := h.put (h.base.step hb) hmoves hpc' hstay.executes hrun (h.frames _) m.holder
  rw [put_self] at hput
  exact hput

theorem Nested.unlock [NeZero n] (h : Nested m) (hphase : (m.thread (m.current c)).phase = .code)
    {pc : Pc n} (hpc : m.base.pc c = pc) (hopen : opened pc = 1) (haway : away pc = false)
    (hgo : ∀ pc' b, Acts m.base c .go pc pc' b →
      ∃ w, pc' = .between w ∧ w.thread? = pc.executes) {m' : Machine C L n}
    (hs : (m.base.next c .go).map (fun b =>
      { m.put c (m.cpu c) { m.thread (m.current c) with phase := .popOff } with base := b }) =
        some m') : Nested m' := by
  subst hpc
  obtain ⟨b, hb, rfl⟩ := Option.map_eq_some_iff.mp hs
  obtain ⟨pc', hacts, hpc', hmoves⟩ := h.base.goes rfl hb
  obtain ⟨w, rfl, hexecutes⟩ := hgo pc' b hacts
  exact h.put (h.base.step hb) hmoves hpc' hexecutes
    ((h.running c).unlock hphase hopen rfl rfl haway.symm hexecutes) (h.frames (m.current c))
    m.holder

omit [DecidableEq C] in
theorem Nested.not_executed (h : Nested m) {i : Fin n} (hpc : m.base.pc c = .swtchIn i) (d : C) :
    (m.base.pc d).executes ≠ some i := by
  intro hd
  obtain rfl := h.base.once d c i (owns_of_executes hd) (by rw [hpc]; rfl)
  rw [hpc] at hd
  cases hd

theorem Running.swtchIn {cpu : Cpu} {th th' : Thread L n} {i : Fin n} {x : Context n}
    (h : Running cpu th (.swtchIn i)) (hpark : Parked th')
    (hfresh : x = .forkret → th'.left = none) : Running cpu th' (.resume i x) := by
  obtain ⟨hphase, hdepth⟩ := h.alone rfl
  obtain ⟨hphase', hdepth', hintena⟩ := hpark
  constructor <;>
    grind [Phase.masked, Phase.lock, opened, Pc.holds, away, Running]

theorem Nested.swtchIn (h : Nested m) {b : System C n} (hbase : Exclusive b)
    (hmoves : Moves m.base c b) {i : Fin n} (hpc : m.base.pc c = .swtchIn i)
    (hpc' : b.pc c = .resume i (m.base.context i)) (hpark : Parked th)
    (hfresh : m.base.context i = .forkret → th.left = none) (hframes : ∀ f ∈ th.frames, f.Stopped) :
    Nested { m with base := b, thread := update m.thread (.process i) th } := by
  have hrun := h.running c
  have hcurrent : m.current c = .scheduler c :=
    current_eq_scheduler.mpr ⟨by rw [hpc]; rfl, rfl⟩
  rw [hpc, hcurrent] at hrun
  refine ⟨hbase, fun d => ?_, fun d hd => ?_, fun p hp hx => ?_, fun t f hf => ?_, h.calm⟩
  · by_cases hd : d = c
    · subst hd
      simpa [Machine.current, hpc', Pc.executes] using hrun.swtchIn hpark hfresh
    · have hne : m.current d ≠ .process i := fun he =>
        h.not_executed hpc d (current_eq_process.mp he)
      rw [current_congr (m := m) (congrArg Pc.executes (hmoves.other d hd))]
      simpa [hne, hmoves.other d hd] using h.running d
  · simp only [ne_eq, reduceCtorEq, not_false_eq_true, update_of_ne]
    by_cases hdc : d = c
    · subst hdc
      exact hrun.alone rfl
    · exact h.scheduler d (hmoves.other d hdc ▸ hd)
  · have hpi : p ≠ i := by
      rintro rfl
      exact hp c (by rw [hpc']; rfl)
    simp only [ne_eq, Tid.process.injEq, hpi, not_false_eq_true, update_of_ne]
    refine h.parked p (fun d => ?_) ?_
    · by_cases hd : d = c
      · rw [hd, hpc]
        simp [Pc.executes]
      · exact hmoves.other d hd ▸ hp d
    · obtain hsame | hfork | hp := hmoves.context p
      · exact hsame ▸ hx
      · exact absurd hfork hx
      · rw [hpc] at hp
        cases hp
  · by_cases ht : t = .process i
    · subst ht
      simp only [update_self] at hf
      exact hframes f hf
    · simp only [ne_eq, ht, not_false_eq_true, update_of_ne] at hf
      exact h.frames t f hf

theorem Running.swtchLoad {cpu : Cpu} {th th' : Thread L n} {t i : Fin n}
    (h : Running cpu th (.swtchLoad t)) (hphase : th'.phase = .code) (hdepth : th'.depth = 0) :
    Running cpu th' (.back i) := by
  obtain ⟨hcode, hzero⟩ := h.alone rfl
  constructor <;>
    grind [Phase.masked, Phase.lock, opened, Pc.holds, Pc.executes, Running]

theorem Running.parked {cpu : Cpu} {t : Fin n} (h : Running cpu th (.swtchLoad t)) : Parked th := by
  obtain ⟨hphase, hdepth⟩ := h.alone rfl
  have hnoff := h.noff
  have hone : opened (Pc.swtchLoad t) = 1 := rfl
  exact ⟨hphase, hdepth, h.left (by simp [Pc.executes]) (.inl (by omega))⟩

theorem Nested.swtchLoad (h : Nested m) {b : System C n} (hbase : Exclusive b)
    (hmoves : Moves m.base c b) {t i : Fin n} (hpc : m.base.pc c = .swtchLoad t)
    (hpc' : b.pc c = .back i) : Nested { m with base := b } := by
  have hrun := h.running c
  have hcurrent : m.current c = .process t := current_eq_process.mpr (by rw [hpc]; rfl)
  obtain ⟨hphase, hdepth⟩ := h.scheduler c (by rw [hpc]; simp [Pc.executes])
  rw [hpc, hcurrent] at hrun
  refine ⟨hbase, fun d => ?_, fun d hd => ?_, fun p hp hx => ?_, h.frames, h.calm⟩
  · by_cases hd : d = c
    · subst hd
      simpa [Machine.current, hpc', Pc.executes] using hrun.swtchLoad hphase hdepth
    · rw [current_congr (m := m) (congrArg Pc.executes (hmoves.other d hd)), hmoves.other d hd]
      exact h.running d
  · by_cases hdc : d = c
    · subst hdc
      exact ⟨hphase, hdepth⟩
    · exact h.scheduler d (hmoves.other d hdc ▸ hd)
  · by_cases hpt : p = t
    · rw [hpt]
      exact hrun.parked
    · have hnot (d : C) : (m.base.pc d).executes ≠ some p := by
        by_cases hd : d = c
        · rw [hd, hpc]
          exact fun he => hpt (Option.some.inj he).symm
        · exact hmoves.other d hd ▸ hp d
      refine h.parked p hnot ?_
      obtain hsame | hfork | hp := hmoves.context p
      · exact hsame ▸ hx
      · exact absurd hfork hx
      · exact absurd hp (hnot c)

omit [DecidableEq C] in
theorem Nested.panic (h : Nested m) {x : Panic} (hx : x ≠ .popOffInterruptible ∧ x ≠ .popOff) :
    Nested { m with panicked := some x } :=
  ⟨h.base, h.running, h.scheduler, h.parked, h.frames, by simpa using hx⟩

theorem Nested.instruction [NeZero n] {m' : Machine C L n} (h : Nested m)
    (hphase : (m.thread (m.current c)).phase = .code) (hs : m.instruction c = some m') :
    Nested m' := by
  have hrun := h.running c
  have hframes := h.frames (m.current c)
  unfold Machine.instruction at hs
  cases hpc : m.base.pc c with
  | between | enter =>
    rw [hpc] at hs
    cases hs
  | inside | check | picked | back | change | swtchOut =>
    rw [hpc] at hs
    exact h.quiet hphase hpc (by rintro _ _ ⟨⟩ <;> exact ⟨rfl, id, rfl, rfl, by simp⟩) hs
  | release | unlock =>
    rw [hpc] at hs
    exact h.unlock hphase hpc rfl rfl (by rintro _ _ ⟨⟩; exact ⟨_, rfl, rfl⟩) hs
  | swtchLoad t =>
    rw [hpc] at hs
    obtain ⟨b, hb, rfl⟩ := Option.map_eq_some_iff.mp hs
    obtain ⟨_, ⟨⟩, hpc', hmoves⟩ := h.base.goes hpc hb
    exact h.swtchLoad (h.base.step hb) hmoves hpc hpc'
  | swtchIn i =>
    rw [hpc] at hs
    obtain ⟨b, hb, hm⟩ := Option.map_eq_some_iff.mp hs
    have hbase := h.base.step hb
    obtain ⟨pc', hacts, hpc', hmoves⟩ := h.base.goes hpc hb
    obtain rfl : pc' = .resume i (m.base.context i) := by cases hacts; rfl
    cases hx : m.base.context i with
    | forkret =>
      rw [hx] at hm
      subst hm
      exact h.swtchIn hbase hmoves hpc hpc' ⟨rfl, rfl, by simp [Thread.fresh]⟩ (fun _ => rfl)
        (by simp [Thread.fresh])
    | sched p k =>
      rw [hx] at hm
      subst hm
      have hpark := h.parked i (h.not_executed hpc) (by simp [hx])
      have hnew := h.swtchIn hbase hmoves hpc hpc' hpark (by simp [hx]) (h.frames _)
      rw [update_eq_self] at hnew
      exact hnew
  | resume t x =>
    rw [hpc] at hs hrun
    obtain ⟨b, hb, rfl⟩ := Option.map_eq_some_iff.mp hs
    have hbase := h.base.step hb
    obtain ⟨_, ⟨⟩, hpc', hmoves⟩ := h.base.goes hpc hb
    exact h.put hbase hmoves hpc' (by rw [hpc]; rfl) hrun.resume hframes m.holder
  | sched t p k =>
    rw [hpc] at hs hrun
    obtain ⟨b, hb, hm⟩ := Option.map_eq_some_iff.mp hs
    have hbase := h.base.step hb
    obtain ⟨_, ⟨⟩, hpc', hmoves⟩ := h.base.goes hpc hb
    simp only [hbase.calm, reduceCtorEq, if_false] at hm
    split at hm
    · subst hm
      exact h.panic (by simp)
    · rename_i hnoff
      split at hm
      · subst hm
        exact h.panic (by simp)
      · subst hm
        exact h.put hbase hmoves hpc' (by rw [hpc]; rfl)
          (hrun.sched hphase (not_not.mp hnoff) _) hframes m.holder

theorem take_goes [NeZero n] {s s' : System C n} {w : Party n} {k : Choice n} (h : Exclusive s)
    (hpc : s.pc c = .between w) (hs : Machine.take s c k = some s') :
    Exclusive s' ∧ Moves s c s' ∧ opened (s'.pc c) = 1 ∧ (switches (s'.pc c) = true → k = .go) ∧
      away (s'.pc c) = false ∧ (s'.pc c).executes = w.thread? := by
  cases k with
  | go =>
    obtain ⟨_, hacts, rfl, hmoves⟩ := h.goes hpc hs
    generalize s'.pc c = pc' at hacts ⊢
    have hstep := h.step hs
    cases hacts
    exact ⟨hstep, hmoves, rfl, fun _ => rfl, rfl, rfl⟩
  | touch q x =>
    have hs : s.next c (.touch q x) = some s' := hs
    obtain ⟨_, hacts, rfl, hmoves⟩ := h.goes hpc hs
    generalize s'.pc c = pc' at hacts ⊢
    have hstep := h.step hs
    cases hacts
    exact ⟨hstep, hmoves, rfl, by simp [switches], rfl, rfl⟩
  | leave l =>
    obtain ⟨u, hu, hs⟩ := Option.bind_eq_some_iff.mp hs
    obtain ⟨_, hacts, hpc', hmoves⟩ := h.goes hpc hu
    have hu := h.step hu
    have hstep := hu.step hs
    cases hacts
    obtain ⟨_, hacts', rfl, hmoves'⟩ := hu.goes hpc' hs
    generalize s'.pc c = pc' at hacts' ⊢
    have htrans := hmoves.trans hmoves' (by rw [hpc, hpc']; rfl)
    cases hacts'
    exact ⟨hstep, htrans, rfl, by simp [switches], rfl, rfl⟩

variable [DecidableEq L]

theorem Nested.go [NeZero n] {m' : Machine C L n} (h : Nested m) (hs : m.go c = some m') :
    Nested m' := by
  have hrun := h.running c
  have hframes := h.frames (m.current c)
  cases hphase : (m.thread (m.current c)).phase with
  | code =>
    simp only [Machine.go, hphase] at hs
    exact h.instruction hphase hs
  | intrOff lk old =>
    simp only [Machine.go, hphase] at hs
    obtain rfl := Option.some.inj hs
    exact h.inner (hrun.intrOff hphase) hframes
  | count lk old =>
    simp only [Machine.go, hphase] at hs
    cases lk with
    | none =>
      obtain rfl := Option.some.inj hs
      exact h.inner (hrun.count hphase (.inl ⟨rfl, rfl⟩)) hframes
    | some lk =>
      obtain rfl := Option.some.inj hs
      exact h.inner (hrun.count hphase (.inr ⟨lk, rfl, rfl⟩)) hframes
  | spin lk =>
    simp only [Machine.go, hphase] at hs
    cases lk with
    | proc k =>
      obtain ⟨b, hb, rfl⟩ := Option.map_eq_some_iff.mp hs
      obtain ⟨⟨w, hpc⟩, -⟩ := hrun.waits k (by rw [hphase]; rfl)
      obtain ⟨hbase, hmoves, hopen, hswitch, haway, hexecutes⟩ := take_goes h.base hpc hb
      rw [hpc] at hrun
      exact h.put hbase hmoves rfl (by rw [hexecutes, hpc]; rfl)
        (hrun.locked hphase hopen hswitch haway hexecutes) hframes m.holder
    | other l =>
      cases hl : m.holder l with
      | none =>
        simp only [hl] at hs
        obtain rfl := Option.some.inj hs
        exact h.put h.base (.refl _ _) rfl rfl (hrun.taken hphase) hframes _
      | some d =>
        simp only [hl] at hs
        split at hs
        · obtain rfl := Option.some.inj hs
          exact h.panic (by simp)
        · cases hs
  | popOff =>
    -- the section to be closed is still counted, so neither check fails
    have hnoff := hrun.noff
    simp only [Machine.go, hphase] at hs hnoff
    have hpos : 0 < (m.cpu c).noff := by simp only [Phase.opened] at hnoff; omega
    have hsie := hrun.masked (.inl hpos)
    rw [if_neg (by simp [hsie]), if_neg (by omega)] at hs
    obtain rfl := Option.some.inj hs
    exact h.inner (hrun.popOff hphase) hframes
  | restore =>
    simp only [Machine.go, hphase] at hs
    obtain rfl := Option.some.inj hs
    exact h.inner (hrun.restore hphase) hframes

theorem Nested.choose {m' : Machine C L n} {x : Action L n} (h : Nested m)
    (hphase : (m.thread (m.current c)).phase = .code) (hs : m.choose c x = some m') :
    Nested m' := by
  have hrun := h.running c
  have hframes := h.frames (m.current c)
  cases x with
  | go => cases hs
  | trap => cases hs
  | sret =>
    simp only [Machine.choose] at hs
    split at hs
    · rename_i w f fs hpc hfs
      split at hs
      · obtain rfl := Option.some.inj hs
        rw [hfs] at hframes
        rw [hpc] at hrun
        refine h.inner ?_ fun g hg => hframes g (List.mem_cons_of_mem f hg)
        rw [hpc]
        exact hrun.sret hphase ‹_› (hframes f List.mem_cons_self) fs
      · cases hs
    · cases hs
  | pushOff lk =>
    simp only [Machine.choose] at hs
    split at hs
    · obtain rfl := Option.some.inj hs
      exact h.inner (hrun.pushOff hphase ‹_›) hframes
    · cases hs
  | popOff =>
    simp only [Machine.choose] at hs
    split at hs
    · rename_i hcalls
      obtain rfl := Option.some.inj hs
      exact h.inner (hrun.close hphase (calls_switches hcalls.1) hcalls.2) hframes
    · cases hs
  | release l =>
    simp only [Machine.choose] at hs
    split at hs
    · rename_i hcalls
      split at hs
      · obtain rfl := Option.some.inj hs
        exact h.put h.base (.refl _ _) rfl rfl
          (hrun.close hphase (calls_switches hcalls.1) hcalls.2) hframes _
      · obtain rfl := Option.some.inj hs
        exact h.panic (by simp)
    · cases hs
  | intr bit =>
    simp only [Machine.choose] at hs
    split at hs
    · rename_i hset
      obtain rfl := Option.some.inj hs
      obtain ⟨⟨w, hpc⟩, hdepth⟩ := maySet_spec hset
      refine h.inner ?_ hframes
      rw [hpc] at hrun ⊢
      exact hrun.intr hphase hdepth bit
    · cases hs

/-- The step lemma: every instruction and every interrupt keeps the invariant. -/
theorem Nested.step [NeZero n] {m' : Machine C L n} {x : Action L n} (h : Nested m)
    (hs : m.next c x = some m') : Nested m' := by
  unfold Machine.next at hs
  split at hs
  · cases hs
  · split at hs
    · exact h.go hs
    · unfold Machine.trap at hs
      simp only at hs
      split at hs
      · rename_i hsie
        obtain rfl := Option.some.inj hs
        refine h.inner ((h.running c).trap hsie _) ?_
        simp only [List.mem_cons, forall_eq_or_imp]
        exact ⟨(h.running c).stopped hsie, h.frames _⟩
      · cases hs
    · split at hs
      · exact h.choose ‹_› hs
      · cases hs

end Steps

theorem nested_boot (C L : Type) (n : ℕ) [NeZero n] : Nested (boot C L n) where
  base := exclusive_boot C n
  running c := by
    refine ⟨rfl, ?_, ?_, ?_, ?_, ?_, ?_, ?_⟩ <;>
      simp [boot, Scheduler.boot, Thread.fresh, Phase.masked, Phase.lock, switches, Pc.executes,
        Party.thread?]
  scheduler c hc := ⟨rfl, rfl⟩
  parked p hp hx := absurd rfl hx
  frames t f hf := by simp [boot, Thread.fresh] at hf
  calm := by simp [boot]

/-- In every interleaving of any number of CPUs, whose threads open and close sections in a
balanced way, are interrupted, call `sched` and go on elsewhere: interrupts are off on a CPU
while its `noff` is positive, `pop_off` does not panic, and when `pop_off` brings the `noff`
of the thread of a process back to 0, it leaves interrupts on exactly if they were on when the
`noff` of that thread last left 0. -/
theorem nesting_survives_switches [DecidableEq C] [DecidableEq L] [NeZero n]
    {m : Machine C L n} (h : Reached m) :
    (∀ c, 0 < (m.cpu c).noff → (m.cpu c).sie = false) ∧
    m.panicked ≠ some .popOffInterruptible ∧ m.panicked ≠ some .popOff ∧
    ∀ c p m', m.current c = .process p → (m.thread (.process p)).phase = .restore →
      (m.cpu c).noff = 0 → m.next c .go = some m' →
      (m.thread (.process p)).left = none ∨
        (m.thread (.process p)).left = some (m'.cpu c).sie := by
  have hnest : Nested m := by
    refine h.invariant (by rintro m rfl; exact nested_boot C L n) ?_
    rintro m ⟨c, x⟩ m' hm hstep
    exact hm.step hstep
  refine ⟨fun c hc => (hnest.running c).masked (.inl hc), hnest.calm.1, hnest.calm.2,
    fun c p m' hp hphase hnoff hs => ?_⟩
  have hrun := hnest.running c
  rw [hp] at hrun
  have haway : away (m.base.pc c) = false := hrun.away_of_phase (by simp [hphase])
  have hexecutes : (m.base.pc c).executes ≠ none := by simp [current_eq_process.mp hp]
  have hsie := hrun.masked (.inr (by rw [hphase]; rfl))
  have hm : (m'.cpu c).sie = (m.cpu c).intena := by
    unfold Machine.next at hs
    split at hs
    · cases hs
    · simp only [Machine.go, hp, hphase] at hs
      obtain rfl := Option.some.inj hs
      simp [Machine.put, hnoff, hsie]
  cases hleft : (m.thread (.process p)).left with
  | none => exact .inl rfl
  | some b =>
    have hb := hrun.left hexecutes (.inr hphase) b hleft
    simp only [haway, Bool.false_eq_true, if_false] at hb
    exact .inr (by rw [hm, hb])

/-- A run with two CPUs: CPU 0 starts the first process, which enables interrupts and yields,
and CPU 1, whose own interrupts are off, takes it up. -/
def migration : List (Fin 2 × Action Unit 1) :=
  [(0, .pushOff (some (.proc .go)))] ++ List.replicate 9 (0, .go) ++
  [(0, .intr true), (0, .pushOff (some (.proc (.leave .yield))))] ++ List.replicate 11 (0, .go) ++
  [(1, .pushOff (some (.proc .go)))] ++ List.replicate 8 (1, .go)

/-- The release in `yield` enables interrupts on the CPU that has taken the process up. -/
theorem nesting_survives_switches_yield : ∃ m m' : Machine (Fin 2) Unit 1,
    Reached m ∧ m.current 1 = .process 0 ∧ (m.cpu 1).sie = false ∧ m.next 1 .go = some m' ∧
      (m'.cpu 1).sie = true := by
  have hrun : (exec (fun m e => m.next e.1 e.2) (boot (Fin 2) Unit 1) migration).any (fun m =>
      m.current 1 = .process 0 ∧ (m.cpu 1).sie = false ∧ (m.cpu 1).noff = 0 ∧
      (m.thread (.process 0)).left = some true ∧ (m.next 1 .go).isSome ∧
      (match (m.thread (.process 0)).phase with
        | .restore => true
        | _ => false) = true) = true := by
    decide +kernel
  obtain ⟨m, hm, hp, hsie, hnoff, hleft, hnext, hphase⟩ := exists_of_any hrun
  have hrestore : (m.thread (.process 0)).phase = .restore := by
    split at hphase
    · assumption
    · cases hphase
  obtain ⟨m', hm'⟩ := Option.isSome_iff_exists.mp hnext
  have hreach : Reached m := reachable_of_exec hm
  obtain hnone | hsome :=
    (nesting_survives_switches hreach).2.2.2 1 0 m' hp hrestore hnoff hm'
  · rw [hleft] at hnone
    cases hnone
  · rw [hleft] at hsome
    exact ⟨m, m', hreach, hp, hsie, hm', (Option.some.inj hsome).symm⟩

end Xv6.Interrupts
