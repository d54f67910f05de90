import Xv6.ExactOwnership
import Xv6.MonitorAssertions
import Xv6.RingBuffers
import Xv6.VirtioDisk
import Mathlib.Data.Fintype.Card

/-!
# Completions of the virtio disk belong to their requests

While a request is in flight its caller waits, owns the three descriptors of its chain, and its
buffer is marked as used by the disk. So the completion in the used ring finds the caller by the
head of the chain, and the caller returns after its own completion only.
-/

namespace Xv6.Virtio
open TransitionSystems SleepWakeupMonitors MonitorAssertions ExactOwnership Function

variable {B : Type}

/-! ### Requests in flight -/

def Shared.queue (sh : Shared B) : List (Ticket B) := sh.submitted.drop sh.device.taken

/-- The requests whose completion the interrupt handler has not seen. -/
def Shared.flight (sh : Shared B) : List (Ticket B) :=
  sh.queue ++ (sh.device.outstanding ++ (sh.device.finished ++ sh.posted))

def Shared.present (sh : Shared B) : List (Ticket B) := sh.handled.toList ++ sh.flight

/-- The rings, the flags and the history fit the requests in flight. The callers that wait do so
for the requests in `W`. -/
structure Tickets (sh : Shared B) (W : Ticket B → Prop) : Prop where
  avail : RingBuffers.Holds (2 ^ 16) sh.availRing sh.device.seen.toNat sh.availIdx.toNat
    (sh.queue.map Ticket.head)
  used : RingBuffers.Holds (2 ^ 16) sh.usedRing sh.usedIdx.toNat sh.usedRingIdx.toNat
    ((sh.handled.toList ++ sh.posted).map Ticket.head)
  nodup : sh.present.Nodup
  waiting : ∀ t ∈ sh.present, W t
  taken_le : sh.device.taken ≤ sh.submitted.length
  serial : ∀ (i : ℕ) (t : Ticket B), sh.submitted[i]? = some t → t.serial = i
  known : ∀ t : Ticket B, t ∈ sh.present ∨ t ∈ sh.performed → sh.submitted[t.serial]? = some t
  disk : ∀ t ∈ sh.flight, sh.disk t.buf = true
  info : ∀ t ∈ sh.flight, (sh.info t.status).b = some t.buf
  status : ∀ t ∈ sh.device.finished ++ sh.posted, (sh.info t.status).status = 0
  flying : ∀ t, W t → sh.disk t.buf = true → t ∈ sh.flight
  complete : ∀ t, W t → sh.disk t.buf = false → t ∈ sh.performed
  once : sh.performed.Nodup
  fresh : ∀ t ∈ sh.queue ++ sh.device.outstanding, t ∉ sh.performed
  past : ∀ t ∈ sh.device.finished ++ (sh.posted ++ sh.handled.toList), t ∈ sh.performed

/-- The requests that are waited for have different heads and different buffers, and their
status is kept with their heads. -/
structure Apart (W : Ticket B → Prop) : Prop where
  head : ∀ t t', W t → W t' → t.head = t'.head → t = t'
  buf : ∀ t t', W t → W t' → t.buf = t'.buf → t = t'
  status : ∀ t, W t → t.head = t.status

variable {sh : Shared B} {W : Ticket B → Prop}

theorem num_dvd : num ∣ 2 ^ 16 := by decide

theorem num_lt : num < 2 ^ 16 := by decide

theorem perm_erase_append {α : Type*} [DecidableEq α] {a : List α} {t : α} (ht : t ∈ a)
    (b c : List α) : (a.erase t ++ ((b ++ [t]) ++ c)).Perm (a ++ (b ++ c)) := by
  rw [List.append_assoc, List.singleton_append, ← List.append_assoc]
  refine List.perm_middle.trans ?_
  rw [List.append_assoc, ← List.cons_append]
  exact (List.perm_cons_erase ht).symm.append_right _

theorem length_le_num (hW : Apart W) {ts : List (Ticket B)} (hnodup : ts.Nodup)
    (hts : ∀ t ∈ ts, W t) : ts.length ≤ num := by
  have hmap : (ts.map fun t => t.status).Nodup := by
    refine (List.nodup_map_iff_inj_on hnodup).mpr fun t ht t' ht' heq => ?_
    refine hW.head t t' (hts t ht) (hts t' ht') ?_
    rw [hW.status t (hts t ht), hW.status t' (hts t' ht'), heq]
  have hle := hmap.length_le_card
  simpa using hle

theorem Apart.insert (h : Apart W) {t : Ticket B} (hhead : ∀ t', W t' → t'.head ≠ t.head)
    (hbuf : ∀ t', W t' → t'.buf ≠ t.buf) (hstatus : t.head = t.status) :
    Apart fun t' => W t' ∨ t' = t where
  head := by
    rintro t₁ t₂ (h₁ | rfl) (h₂ | rfl) heq
    · exact h.head t₁ t₂ h₁ h₂ heq
    · exact absurd heq (hhead t₁ h₁)
    · exact absurd heq.symm (hhead t₂ h₂)
    · rfl
  buf := by
    rintro t₁ t₂ (h₁ | rfl) (h₂ | rfl) heq
    · exact h.buf t₁ t₂ h₁ h₂ heq
    · exact absurd heq (hbuf t₁ h₁)
    · exact absurd heq.symm (hbuf t₂ h₂)
    · rfl
  status := by
    rintro t' (ht' | rfl)
    · exact h.status t' ht'
    · exact hstatus

namespace Tickets

theorem mem_present_of_done (t : Ticket B) (ht : t ∈ sh.device.finished ++ sh.posted) :
    t ∈ sh.present :=
  List.mem_append_right _ (List.mem_append_right _ (List.mem_append_right _ ht))

theorem mem_present_of_flight {t : Ticket B} (ht : t ∈ sh.flight) : t ∈ sh.present :=
  List.mem_append_right _ ht

theorem shuffle (h : Tickets sh W) {sh' : Shared B} (hsub : sh'.submitted = sh.submitted)
    (hdisk : sh'.disk = sh.disk) (hinfo : ∀ i, (sh'.info i).b = (sh.info i).b)
    (hhandled : sh'.handled = sh.handled) (hflight : sh'.flight.Perm sh.flight)
    (hperf : ∀ t ∈ sh.performed, t ∈ sh'.performed)
    (havail : RingBuffers.Holds (2 ^ 16) sh'.availRing sh'.device.seen.toNat sh'.availIdx.toNat
      (sh'.queue.map Ticket.head))
    (hused : RingBuffers.Holds (2 ^ 16) sh'.usedRing sh'.usedIdx.toNat sh'.usedRingIdx.toNat
      ((sh'.handled.toList ++ sh'.posted).map Ticket.head))
    (htaken : sh'.device.taken ≤ sh'.submitted.length)
    (hknown : ∀ t ∈ sh'.performed, t ∈ sh.present ∨ t ∈ sh.performed)
    (hstatus : ∀ t ∈ sh'.device.finished ++ sh'.posted, (sh'.info t.status).status = 0)
    (honce : sh'.performed.Nodup)
    (hfresh : ∀ t ∈ sh'.queue ++ sh'.device.outstanding, t ∉ sh'.performed)
    (hpast : ∀ t ∈ sh'.device.finished ++ (sh'.posted ++ sh'.handled.toList), t ∈ sh'.performed) :
    Tickets sh' W := by
  have hpresent : sh'.present.Perm sh.present := by
    rw [Shared.present, hhandled]
    exact hflight.append_left _
  refine ⟨havail, hused, hpresent.nodup_iff.mpr h.nodup,
    fun t ht => h.waiting t (hpresent.mem_iff.mp ht), htaken, by rw [hsub]; exact h.serial,
    fun t ht => ?_, fun t ht => ?_, fun t ht => ?_, hstatus, fun t ht hd => ?_, fun t ht hd => ?_,
    honce, hfresh, hpast⟩
  · rw [hsub]
    exact ht.elim (fun hp => h.known t (.inl (hpresent.mem_iff.mp hp))) fun hp =>
      h.known t (hknown t hp)
  · rw [hdisk]
    exact h.disk t (hflight.mem_iff.mp ht)
  · rw [hinfo]
    exact h.info t (hflight.mem_iff.mp ht)
  · rw [hdisk] at hd
    exact hflight.mem_iff.mpr (h.flying t ht hd)
  · rw [hdisk] at hd
    exact hperf t (h.complete t ht hd)

theorem take (h : Tickets sh W) {t : Ticket B} {q : List (Ticket B)} (hq : sh.queue = t :: q) :
    Tickets { sh with device := { sh.device with
      seen := sh.device.seen + 1
      taken := sh.device.taken + 1
      outstanding := sh.device.outstanding ++ [t] } } W := by
  have hq' : sh.submitted.drop (sh.device.taken + 1) = q := by
    have htail := congrArg List.tail hq
    rwa [Shared.queue, List.tail_drop] at htail
  have hlt : sh.device.taken < sh.submitted.length := by
    by_contra hle
    rw [Shared.queue, List.drop_eq_nil_of_le (by omega)] at hq
    cases hq
  refine h.shuffle rfl rfl (fun _ => rfl) rfl ?_ (fun _ => id) ?_ h.used hlt (fun _ => .inr)
    h.status h.once ?_ h.past
  · simp only [Shared.flight, Shared.queue, hq']
    rw [show sh.submitted.drop sh.device.taken = t :: q from hq, List.append_assoc,
      List.singleton_append, ← List.append_assoc]
    refine List.perm_middle.trans ?_
    rw [List.append_assoc, List.cons_append]
  · have havail := h.avail
    rw [hq, List.map_cons] at havail
    simpa [Shared.queue, hq', UInt16.toNat_add] using havail.take num_dvd
  · intro t' ht'
    refine h.fresh t' ?_
    simp only [Shared.queue, hq'] at ht'
    rw [hq]
    simp only [List.mem_append, List.mem_cons] at ht' ⊢
    tauto

theorem perform [DecidableEq B] (h : Tickets sh W) {t : Ticket B}
    (ht : t ∈ sh.device.outstanding) :
    Tickets { sh with
      info := update sh.info t.status { sh.info t.status with status := 0 }
      device := { sh.device with
        outstanding := sh.device.outstanding.erase t
        finished := sh.device.finished ++ [t] }
      performed := sh.performed ++ [t] } W := by
  have hmem : t ∈ sh.queue ++ sh.device.outstanding := List.mem_append_right _ ht
  have hnew := h.fresh t hmem
  have hflight : t ∈ sh.flight := by
    simp only [Shared.flight, List.mem_append]
    exact .inr (.inl ht)
  have hsplit : (sh.queue ++ sh.device.outstanding).Nodup :=
    h.nodup.sublist (by
      rw [Shared.present, Shared.flight, ← List.append_assoc sh.queue]
      exact (List.sublist_append_left _ _).trans (List.sublist_append_right _ _))
  have hout : sh.device.outstanding.Nodup := hsplit.of_append_right
  refine h.shuffle rfl rfl (fun i => ?_) rfl ?_ (fun t' ht' => List.mem_append_left _ ht')
    h.avail h.used h.taken_le (fun t' ht' => ?_) (fun t' ht' => ?_) ?_ (fun t' ht' => ?_)
    (fun t' ht' => ?_)
  · by_cases hi : i = t.status
    · subst hi
      simp
    · simp [hi]
  · simp only [Shared.flight]
    exact (perm_erase_append ht _ _).append_left _
  · rcases List.mem_append.mp ht' with ht' | ht'
    · exact .inr ht'
    · rw [List.mem_singleton.mp ht']
      exact .inl (mem_present_of_flight hflight)
  · by_cases hs : t'.status = t.status
    · rw [hs]
      simp
    · simp only [update_of_ne hs]
      refine h.status t' ?_
      simp only [List.mem_append, List.mem_singleton] at ht' ⊢
      rcases ht' with (ht' | rfl) | ht'
      · exact .inl ht'
      · exact absurd rfl hs
      · exact .inr ht'
  · exact h.once.append (List.nodup_singleton t) (by simpa using hnew)
  · have hold : t' ∈ sh.queue ++ sh.device.outstanding :=
      List.mem_append.mpr ((List.mem_append.mp ht').imp_right fun ho => List.mem_of_mem_erase ho)
    have hne : t' ≠ t := by
      rintro rfl
      rcases List.mem_append.mp ht' with hq | ho
      · exact (List.nodup_append.mp hsplit).2.2 t' hq t' ht rfl
      · exact hout.not_mem_erase ho
    simp only [List.mem_append, List.mem_singleton, not_or]
    exact ⟨h.fresh t' hold, hne⟩
  · have hpast := h.past t'
    simp only [List.mem_append, List.mem_singleton] at ht' hpast ⊢
    tauto

theorem post [DecidableEq B] (hW : Apart W) (h : Tickets sh W) {t : Ticket B}
    (ht : t ∈ sh.device.finished) :
    Tickets { sh with
      usedRing := update sh.usedRing (Fin.ofNat num sh.usedRingIdx.toNat) t.head
      usedRingIdx := sh.usedRingIdx + 1
      device := { sh.device with finished := sh.device.finished.erase t }
      posted := sh.posted ++ [t] } W := by
  have hsub : (sh.handled.toList ++ (sh.device.finished ++ sh.posted)).Sublist sh.present :=
    (List.Sublist.refl _).append
      ((List.sublist_append_right _ _).trans (List.sublist_append_right _ _))
  have hnodup := h.nodup.sublist hsub
  have hused : (sh.handled.toList ++ sh.posted).Sublist
      (sh.handled.toList ++ (sh.device.finished ++ sh.posted)) :=
    (List.Sublist.refl _).append (List.sublist_append_right _ _)
  have hposted : t ∉ sh.handled.toList ++ sh.posted := by
    obtain ⟨-, hright, hne⟩ := List.nodup_append.mp hnodup
    intro hmem
    rcases List.mem_append.mp hmem with hh | hp
    · exact hne t hh t (List.mem_append_left _ ht) rfl
    · exact (List.nodup_append.mp hright).2.2 t ht t hp rfl
  have hmem : ∀ t' ∈ t :: (sh.handled.toList ++ sh.posted), t' ∈ sh.present := by
    intro t' ht'
    rcases List.mem_cons.mp ht' with rfl | ht'
    · exact hsub.subset (List.mem_append_right _ (List.mem_append_left _ ht))
    · exact hsub.subset (hused.subset ht')
  refine h.shuffle rfl rfl (fun _ => rfl) rfl ?_ (fun _ => id) h.avail ?_ h.taken_le
    (fun _ => .inr) (fun t' ht' => h.status t' ?_) h.once h.fresh (fun t' ht' => h.past t' ?_)
  · simp only [Shared.flight]
    have hperm := perm_erase_append ht sh.posted []
    rw [List.append_nil, List.append_nil] at hperm
    exact (hperm.append_left _).append_left _
  · have hlen : (sh.handled.toList ++ sh.posted).length < num := by
      have hle := length_le_num hW (List.nodup_cons.mpr ⟨hposted, hnodup.sublist hused⟩)
        fun t' ht' => h.waiting t' (hmem t' ht')
      rw [List.length_cons] at hle
      omega
    have hput := h.used.put num_dvd (by rwa [List.length_map]) t.head
    simpa [UInt16.toNat_add] using hput
  · have hmem : t' ∈ sh.device.finished.erase t → t' ∈ sh.device.finished := List.mem_of_mem_erase
    simp only [List.mem_append, List.mem_singleton] at ht' ⊢
    rcases ht' with ht' | ht' | rfl
    · exact .inl (hmem ht')
    · exact .inr ht'
    · exact .inl ht
  · have hmem : t' ∈ sh.device.finished.erase t → t' ∈ sh.device.finished := List.mem_of_mem_erase
    simp only [List.mem_append, List.mem_singleton] at ht' ⊢
    rcases ht' with ht' | (ht' | rfl) | ht'
    · exact .inl (hmem ht')
    · exact .inr (.inl ht')
    · exact .inl ht
    · exact .inr (.inr ht')

theorem room (hW : Apart W) (h : Tickets sh W) {t : Ticket B}
    (hnew : ∀ t', W t' → t'.head ≠ t.head) (hbuf : ∀ t', W t' → t'.buf ≠ t.buf)
    (hhead : t.head = t.status) : (sh.queue.map Ticket.head).length < num := by
  have hqueue (t' : Ticket B) (ht' : t' ∈ sh.queue) : W t' :=
    h.waiting t' (List.mem_append_right _ (List.mem_append_left _ ht'))
  have hnodup : (t :: sh.queue).Nodup :=
    List.nodup_cons.mpr ⟨fun ht => hnew t (hqueue t ht) rfl, h.nodup.sublist
      ((List.sublist_append_left _ _).trans (List.sublist_append_right _ _))⟩
  have hle := length_le_num (hW.insert hnew hbuf hhead) hnodup fun t' ht' => ?_
  · rw [List.length_cons] at hle
    rw [List.length_map]
    omega
  · rcases List.mem_cons.mp ht' with rfl | ht'
    · exact .inr rfl
    · exact .inl (hqueue t' ht')

theorem fill (h : Tickets sh W) (hroom : (sh.queue.map Ticket.head).length < num) (i : ℕ) :
    Tickets { sh with
      availRing := update sh.availRing (Fin.ofNat num sh.availIdx.toNat) i } W :=
  ⟨h.avail.fill num_dvd hroom i, h.used, h.nodup, h.waiting, h.taken_le, h.serial, h.known, h.disk,
    h.info, h.status, h.flying, h.complete, h.once, h.fresh, h.past⟩

theorem publish (hW : Apart W) (h : Tickets sh W) {t : Ticket B}
    (hserial : t.serial = sh.submitted.length) (hnew : ∀ t', W t' → t'.head ≠ t.head)
    (hbuf : ∀ t', W t' → t'.buf ≠ t.buf) (hhead : t.head = t.status)
    (hring : sh.availRing (Fin.ofNat num sh.availIdx.toNat) = t.head)
    (hdisk : sh.disk t.buf = true) (hinfo : (sh.info t.status).b = some t.buf) :
    Tickets { sh with availIdx := sh.availIdx + 1, submitted := sh.submitted ++ [t] }
      (fun t' => W t' ∨ t' = t) := by
  have hqueue : (sh.submitted ++ [t]).drop sh.device.taken = sh.queue ++ [t] := by
    rw [List.drop_append_of_le_length h.taken_le]
    rfl
  have hmem (t' : Ticket B) : t' ∈ Shared.flight
      { sh with availIdx := sh.availIdx + 1, submitted := sh.submitted ++ [t] } ↔
        t' ∈ sh.flight ∨ t' = t := by
    simp only [Shared.flight, Shared.queue, hqueue, List.mem_append, List.mem_singleton]
    tauto
  have hpresent : (Shared.present
      { sh with availIdx := sh.availIdx + 1, submitted := sh.submitted ++ [t] }).Perm
        (t :: sh.present) := by
    simp only [Shared.present, Shared.flight, Shared.queue, hqueue]
    rw [List.append_assoc, ← List.append_assoc, List.singleton_append]
    refine List.perm_middle.trans ?_
    rw [List.append_assoc]
  have hunknown {t' : Ticket B} (ht' : t' ∈ sh.present ∨ t' ∈ sh.performed) : t' ≠ t := by
    rintro rfl
    have hk := h.known t' ht'
    rw [hserial, List.getElem?_eq_none le_rfl] at hk
    cases hk
  have hroom := h.room hW hnew hbuf hhead
  refine ⟨?_, h.used, ?_, fun t' ht' => ?_, ?_, fun i t' ht' => ?_, fun t' ht' => ?_,
    fun t' ht' => ?_, fun t' ht' => ?_, h.status, fun t' ht' hd => ?_, fun t' ht' hd => ?_, h.once,
    fun t' ht' => ?_, h.past⟩
  · have hpush := h.avail.push num_dvd hroom hring
    simpa [Shared.queue, hqueue, UInt16.toNat_add] using hpush
  · exact hpresent.nodup_iff.mpr (List.nodup_cons.mpr ⟨fun ht => hunknown (.inl ht) rfl, h.nodup⟩)
  · rcases List.mem_cons.mp (hpresent.mem_iff.mp ht') with rfl | ht'
    · exact .inr rfl
    · exact .inl (h.waiting t' ht')
  · exact h.taken_le.trans (by simp)
  · simp only at ht'
    rcases Nat.lt_or_ge i sh.submitted.length with hi | hi
    · rw [List.getElem?_append_left hi] at ht'
      exact h.serial i t' ht'
    · rw [List.getElem?_append_right hi, List.getElem?_singleton] at ht'
      split_ifs at ht' with hi0
      cases ht'
      omega
  · have hold : t' ∈ sh.present ∨ t' ∈ sh.performed ∨ t' = t := by
      rcases ht' with ht' | ht'
      · rcases List.mem_cons.mp (hpresent.mem_iff.mp ht') with rfl | ht'
        · exact .inr (.inr rfl)
        · exact .inl ht'
      · exact .inr (.inl ht')
    rcases or_assoc.mpr hold with hold | rfl
    · have hknown := h.known t' hold
      rwa [List.getElem?_append_left (List.getElem?_eq_some_iff.mp hknown).1]
    · simp [hserial]
  · rcases (hmem t').mp ht' with ht' | rfl
    · exact h.disk t' ht'
    · exact hdisk
  · rcases (hmem t').mp ht' with ht' | rfl
    · exact h.info t' ht'
    · exact hinfo
  · refine (hmem t').mpr ?_
    exact ht'.imp_left fun hw => h.flying t' hw hd
  · rcases ht' with hw | rfl
    · exact h.complete t' hw hd
    · simp only at hd
      rw [hdisk] at hd
      cases hd
  · simp only [Shared.queue, hqueue, List.mem_append, List.mem_singleton] at ht'
    rcases ht' with (ht' | rfl) | ht'
    · exact h.fresh t' (List.mem_append_left _ ht')
    · exact fun hp => hunknown (.inr hp) rfl
    · exact h.fresh t' (List.mem_append_right _ ht')

theorem handle [DecidableEq B] (hW : Apart W) (h : Tickets sh W) (hnone : sh.handled = none)
    {t : Ticket B} {ts : List (Ticket B)} (hposted : sh.posted = t :: ts) :
    Tickets { sh with
      disk := update sh.disk t.buf false
      handled := some t
      posted := ts } W := by
  have hall : sh.present = sh.flight := by
    rw [Shared.present, hnone]
    rfl
  have hpresent : (Shared.present { sh with
      disk := update sh.disk t.buf false
      handled := some t
      posted := ts }).Perm sh.present := by
    rw [hall]
    simp only [Shared.present, Shared.flight, Shared.queue, hposted, Option.toList_some,
      List.singleton_append]
    rw [← List.append_assoc, ← List.append_assoc, ← List.append_assoc, ← List.append_assoc]
    exact List.perm_middle.symm
  have hnodup : (Shared.present { sh with
      disk := update sh.disk t.buf false
      handled := some t
      posted := ts }).Nodup := hpresent.nodup_iff.mpr h.nodup
  have hflight {t' : Ticket B} (ht' : t' ∈ Shared.flight { sh with
      disk := update sh.disk t.buf false
      handled := some t
      posted := ts }) : t' ∈ sh.flight ∧ t' ≠ t := by
    refine ⟨hall ▸ hpresent.mem_iff.mp (mem_present_of_flight ht'), ?_⟩
    rintro rfl
    exact (List.nodup_cons.mp hnodup).1 ht'
  have ht : t ∈ sh.flight := by
    simp [Shared.flight, hposted]
  have hwt := h.waiting t (mem_present_of_flight ht)
  refine ⟨h.avail, ?_, hnodup, fun t' ht' => h.waiting t' (hpresent.mem_iff.mp ht'), h.taken_le,
    h.serial, fun t' ht' => h.known t' (ht'.imp_left hpresent.mem_iff.mp), fun t' ht' => ?_,
    fun t' ht' => h.info t' (hflight ht').1, fun t' ht' => h.status t' ?_, fun t' ht' hd => ?_,
    fun t' ht' hd => ?_, h.once, h.fresh, fun t' ht' => h.past t' ?_⟩
  · simpa [hnone, hposted] using h.used
  · have hold := hflight ht'
    have hne : t'.buf ≠ t.buf := fun heq =>
      hold.2 (hW.buf t' t (h.waiting t' (mem_present_of_flight hold.1)) hwt heq)
    simp only [update_of_ne hne]
    exact h.disk t' hold.1
  · rw [hposted]
    simp only [List.mem_append, List.mem_cons] at ht' ⊢
    tauto
  · by_cases heq : t'.buf = t.buf
    · simp [heq] at hd
    · simp only [update_of_ne heq] at hd
      have hold := h.flying t' ht' hd
      have hmem := hpresent.mem_iff.mpr (mem_present_of_flight hold)
      rcases List.mem_cons.mp hmem with rfl | hmem
      · exact absurd rfl heq
      · exact hmem
  · by_cases heq : t'.buf = t.buf
    · obtain rfl := hW.buf t' t ht' hwt heq
      exact h.past t' (by simp [hposted])
    · simp only [update_of_ne heq] at hd
      exact h.complete t' ht' hd
  · rw [hposted, hnone]
    simp only [List.mem_append, List.mem_cons, Option.toList_some, Option.toList_none,
      List.not_mem_nil, or_false] at ht' ⊢
    tauto

theorem bump (h : Tickets sh W) {t : Ticket B} (hhandled : sh.handled = some t) :
    Tickets { sh with usedIdx := sh.usedIdx + 1, handled := none } W := by
  have hsub : sh.flight.Sublist sh.present := List.sublist_append_right _ _
  refine ⟨h.avail, ?_, h.nodup.sublist hsub, fun t' ht' => h.waiting t' (hsub.subset ht'),
    h.taken_le, h.serial, fun t' ht' => h.known t' (ht'.imp_left fun hp => hsub.subset hp), h.disk,
    h.info, h.status, h.flying, h.complete, h.once, h.fresh, fun t' ht' => h.past t' ?_⟩
  · have hused := h.used
    rw [hhandled] at hused
    simpa [UInt16.toNat_add] using
      RingBuffers.Holds.take (x := t.head) (q := sh.posted.map Ticket.head) hused num_dvd
  · simp only [Option.toList_none, List.append_nil, List.mem_append] at ht' ⊢
    tauto

theorem leave (hW : Apart W) (h : Tickets sh W) (hnone : sh.handled = none) {t : Ticket B}
    (hdisk : sh.disk t.buf = false) {W' : Ticket B → Prop} (hW' : ∀ t', W' t' ↔ W t' ∧ t' ≠ t)
    (ht : W t) : Tickets { sh with
      info := update sh.info t.status { sh.info t.status with b := none } } W' := by
  have hall : sh.present = sh.flight := by
    rw [Shared.present, hnone]
    rfl
  have hne {t' : Ticket B} (ht' : t' ∈ sh.present) : t' ≠ t := by
    rintro rfl
    have hd := h.disk t' (hall ▸ ht')
    rw [hdisk] at hd
    cases hd
  have hstatus {t' : Ticket B} (ht' : t' ∈ sh.present) : t'.status ≠ t.status := by
    intro heq
    have hw := h.waiting t' ht'
    refine hne ht' (hW.head t' t hw ht ?_)
    rw [hW.status t' hw, hW.status t ht, heq]
  refine ⟨h.avail, h.used, h.nodup, fun t' ht' => (hW' t').mpr ⟨h.waiting t' ht', hne ht'⟩,
    h.taken_le, h.serial, h.known, h.disk, fun t' ht' => ?_, fun t' ht' => ?_,
    fun t' ht' => h.flying t' ((hW' t').mp ht').1, fun t' ht' => h.complete t' ((hW' t').mp ht').1,
    h.once, h.fresh, h.past⟩
  · simp only [update_of_ne (hstatus (mem_present_of_flight ht'))]
    exact h.info t' ht'
  · simp only [update_of_ne (hstatus (mem_present_of_done t' ht'))]
    exact h.status t' ht'

theorem format [DecidableEq B] (h : Tickets sh W) {b : B} {i : Fin num}
    (hbuf : ∀ t, W t → t.buf ≠ b) (hhead : ∀ t, W t → t.status ≠ i) {desc : Fin num → Desc B}
    {ops : Fin num → BlkReq} : Tickets { sh with
      ops := ops
      desc := desc
      info := update sh.info i ⟨some b, 0xff⟩
      disk := update sh.disk b true } W := by
  refine ⟨h.avail, h.used, h.nodup, h.waiting, h.taken_le, h.serial, h.known, fun t ht => ?_,
    fun t ht => ?_, fun t ht => ?_, fun t ht hd => ?_, fun t ht hd => ?_, h.once, h.fresh, h.past⟩
  · simp only [update_of_ne (hbuf t (h.waiting t (mem_present_of_flight ht)))]
    exact h.disk t ht
  · simp only [update_of_ne (hhead t (h.waiting t (mem_present_of_flight ht)))]
    exact h.info t ht
  · simp only [update_of_ne (hhead t (h.waiting t (mem_present_of_done t ht)))]
    exact h.status t ht
  · simp only [update_of_ne (hbuf t ht)] at hd
    exact h.flying t ht hd
  · simp only [update_of_ne (hbuf t ht)] at hd
    exact h.complete t ht hd

end Tickets

/-! ### Callers and their descriptors -/

namespace Control

def descs : Control B → List (Fin num)
  | .alloc3 _ _ idx | .undo _ _ idx => idx
  | .format _ i j k | .ring _ _ i j k | .publish _ _ i j k | .waitDisk _ _ i j k => [i, j, k]
  | .freeChain _ _ _ rest => rest
  | _ => []

def ticket? : Control B → Option (Ticket B)
  | .waitDisk r serial i _ _ => some (r.ticket serial i)
  | _ => none

def buf? : Control B → Option B
  | .rw r | .retry r | .alloc3 r _ _ | .undo r _ _ | .full r _ | .format r _ _ _ => some r.buf
  | .ring r _ _ _ _ | .publish r _ _ _ _ | .waitDisk r _ _ _ _ => some r.buf
  | .freeChain r _ _ _ | .done r _ | .returned r _ => some r.buf
  | _ => none

def inner : Control B → Bool
  | .alloc3 _ _ _ | .undo _ _ _ | .full _ _ | .format _ _ _ _ | .ring _ _ _ _ _ => true
  | .publish _ _ _ _ _ | .freeChain _ _ _ _ | .done _ _ | .scan | .bump => true
  | _ => false

end Control

def freeCount (free : Fin num → Bool) : ℕ := (Finset.univ.filter fun i => free i = true).card

structure Linked (sh : Shared B) (r : Request B) (i j k : Fin num) : Prop where
  first : sh.desc i = ⟨.op i, 16, vringDescFNext, j⟩
  second : sh.desc j =
    ⟨.data r.buf, bSize, (if r.write then 0 else vringDescFWrite) ||| vringDescFNext, k⟩
  third : sh.desc k = ⟨.status i, 1, vringDescFWrite, 0⟩
  op : sh.ops i = ⟨r.write, r.sector⟩

/-- The flags and the links of a list of descriptors that begins with `i`. -/
def Chain (desc : Fin num → Desc B) : ℕ → List (Fin num) → Prop
  | _, [] => False
  | i, [x] => x.val = i ∧ (desc x).flags &&& vringDescFNext = 0
  | i, x :: y :: rest => x.val = i ∧ (desc x).flags &&& vringDescFNext ≠ 0 ∧
      Chain desc (desc x).next (y :: rest)

/-- The request `t` is what `r` asks for, and the device has performed it. -/
def Performed (sh : Shared B) (r : Request B) (t : Ticket B) : Prop :=
  t ∈ sh.performed ∧ t.buf = r.buf ∧ t.out = r.write ∧ t.sector = r.sector

def Prepared (sh : Shared B) : Control B → Prop
  | .alloc3 _ old idx => idx.length ≤ 3 ∧ ∀ i, old i = true ↔ sh.free i = true ∨ i ∈ idx
  | .undo _ old idx => freeCount old < 3 ∧ ∀ i, old i = true ↔ sh.free i = true ∨ i ∈ idx
  | .full _ old => freeCount old < 3 ∧ sh.free = old
  | .ring r serial i j k => Linked sh r i j k ∧ serial = sh.submitted.length ∧
      sh.disk r.buf = true ∧ (sh.info i).b = some r.buf
  | .publish r serial i j k => Linked sh r i j k ∧ serial = sh.submitted.length ∧
      sh.disk r.buf = true ∧ (sh.info i).b = some r.buf ∧
      sh.availRing (Fin.ofNat num sh.availIdx.toNat) = i
  | .waitDisk r _ i j k => Linked sh r i j k
  | .freeChain r t i rest => Performed sh r t ∧ Chain sh.desc i rest
  | .done r t | .returned r t => Performed sh r t
  | .bump => ∃ t, sh.handled = some t
  | _ => True

def owns {P : Type} (ctl : P → Control B) (o : P × Fin num) : Option (Fin num) :=
  if o.2 ∈ (ctl o.1).descs then some o.2 else none

def Waits {P : Type} (ctl : P → Control B) (t : Ticket B) : Prop := ∃ p, (ctl p).ticket? = some t

structure Inv {P : Type} (sh : Shared B) (ctl : P → Control B) : Prop where
  owned : Exact Set.univ (fun i => !sh.free i) (owns ctl)
  nodup : ∀ p, (ctl p).descs.Nodup
  prepared : ∀ p, Prepared sh (ctl p)
  locked : ∀ p b, (ctl p).buf? = some b → sh.locked b = true
  bufs : ∀ p q b, (ctl p).buf? = some b → (ctl q).buf? = some b → p = q
  handled : ∀ t, sh.handled = some t → ∃ p, ctl p = .bump
  tickets : Tickets sh (Waits ctl)

variable {P : Type} {ctl : P → Control B}

theorem owns_eq_some {p : P} {i j : Fin num} :
    owns ctl (p, i) = some j ↔ i = j ∧ i ∈ (ctl p).descs := by
  simp only [owns]
  split_ifs with h <;> simp [h]

theorem Inv.desc_inj (h : Inv sh ctl) {p q : P} {i : Fin num} (hp : i ∈ (ctl p).descs)
    (hq : i ∈ (ctl q).descs) : p = q :=
  congrArg Prod.fst (h.owned.inj (owns_eq_some.mpr ⟨rfl, hp⟩) (owns_eq_some.mpr ⟨rfl, hq⟩))

theorem Inv.free_eq_false (h : Inv sh ctl) {p : P} {i : Fin num} (hp : i ∈ (ctl p).descs) :
    sh.free i = false := by
  have hused := (h.owned.used_iff (Set.mem_univ i)).mpr ⟨(p, i), owns_eq_some.mpr ⟨rfl, hp⟩⟩
  simpa using hused

theorem ticket_mem_descs {l : Control B} {t : Ticket B} (h : l.ticket? = some t) :
    t.status ∈ l.descs ∧ t.head = t.status ∧ l.buf? = some t.buf := by
  cases l <;> cases h
  exact ⟨List.mem_cons_self, rfl, rfl⟩

theorem Inv.apart (h : Inv sh ctl) : Apart (Waits ctl) where
  head := by
    rintro t t' ⟨p, hp⟩ ⟨q, hq⟩ heq
    obtain ⟨hmem, hhead, -⟩ := ticket_mem_descs hp
    obtain ⟨hmem', hhead', -⟩ := ticket_mem_descs hq
    have hstatus : t.status = t'.status := Fin.ext (by omega)
    obtain rfl := h.desc_inj hmem (hstatus ▸ hmem')
    exact Option.some.inj (hp.symm.trans hq)
  buf := by
    rintro t t' ⟨p, hp⟩ ⟨q, hq⟩ heq
    obtain rfl := h.bufs p q t.buf (ticket_mem_descs hp).2.2 (heq ▸ (ticket_mem_descs hq).2.2)
    exact Option.some.inj (hp.symm.trans hq)
  status := by
    rintro t ⟨p, hp⟩
    exact (ticket_mem_descs hp).2.1

/-! ### One party moves -/

/-- Nobody but `p` is at work with the lock held. -/
def Alone (ctl : P → Control B) (p : P) : Prop := ∀ q, q ≠ p → (ctl q).inner = false

theorem Inv.prepared_at (h : Inv sh ctl) {p : P} {l : Control B} (hl : ctl p = l) :
    Prepared sh l := hl ▸ h.prepared p

variable {sh' : Shared B}

theorem Prepared.outer {l : Control B} (h : Prepared sh l) (hinner : l.inner = false)
    (hdesc : ∀ i ∈ l.descs, sh'.desc i = sh.desc i ∧ sh'.ops i = sh.ops i)
    (hperf : ∀ t ∈ sh.performed, t ∈ sh'.performed) : Prepared sh' l := by
  cases l with
  | waitDisk r serial i j k =>
    simp only [Control.descs, List.mem_cons, List.not_mem_nil, or_false, forall_eq_or_imp,
      forall_eq] at hdesc
    obtain ⟨⟨hi, hop⟩, ⟨hj, -⟩, ⟨hk, -⟩⟩ := hdesc
    exact ⟨hi ▸ h.first, hj ▸ h.second, hk ▸ h.third, hop ▸ h.op⟩
  | returned r t => exact ⟨hperf t h.1, h.2⟩
  | idle | device | rw | retry | intr => trivial
  | _ => cases hinner

variable [DecidableEq P] {p : P} {l : Control B}

theorem Tickets.congr {W' : Ticket B → Prop} (h : Tickets sh W) (hW : ∀ t, W' t ↔ W t) :
    Tickets sh W' := by
  obtain rfl : W' = W := funext fun t => propext (hW t)
  exact h

theorem waits_update (t : Ticket B) : Waits (update ctl p l) t ↔
    l.ticket? = some t ∨ ∃ q, q ≠ p ∧ (ctl q).ticket? = some t :=
  exists_update_iff ctl fun _ l => l.ticket? = some t

theorem waits_iff (p : P) (t : Ticket B) : Waits ctl t ↔
    (ctl p).ticket? = some t ∨ ∃ q, q ≠ p ∧ (ctl q).ticket? = some t := by
  have h : Waits (update ctl p (ctl p)) t ↔ _ := waits_update t
  rwa [update_eq_self] at h

theorem waits_update_same (hl : l.ticket? = (ctl p).ticket?) (t : Ticket B) :
    Waits (update ctl p l) t ↔ Waits ctl t := by
  rw [waits_update, waits_iff p, hl]

theorem owns_update {i : Fin num} {o : Option (Fin num)} (hi : owns (fun _ : P => l) (p, i) = o)
    (hl : ∀ x, x ≠ i → (x ∈ l.descs ↔ x ∈ (ctl p).descs)) :
    owns (update ctl p l) = update (owns ctl) (p, i) o := by
  funext ⟨q, x⟩
  simp only [owns, update_apply, Prod.mk.injEq] at hi ⊢
  grind

theorem owns_update_same (hl : l.descs = (ctl p).descs) :
    owns (update ctl p l) = owns ctl := by
  funext ⟨q, i⟩
  by_cases hq : q = p
  · subst hq
    simp [owns, hl]
  · simp [owns, hq]

theorem Inv.change (h : Inv sh ctl)
    (howned : Exact Set.univ (fun i => !sh'.free i) (owns (update ctl p l)))
    (hnodup : l.descs.Nodup) (hprep : Prepared sh' l) (hothers : ∀ q, q ≠ p → Prepared sh' (ctl q))
    (hbuf : l.buf? = (ctl p).buf?) (hlocked : sh'.locked = sh.locked)
    (hhandled : ∀ t, sh'.handled = some t → ∃ q, update ctl p l q = .bump)
    (htickets : Tickets sh' (Waits (update ctl p l))) : Inv sh' (update ctl p l) := by
  have hbufs : ∀ q, (update ctl p l q).buf? = (ctl q).buf? :=
    (forall_update_iff ctl fun q l => l.buf? = (ctl q).buf?).mpr ⟨hbuf, fun _ _ => rfl⟩
  refine ⟨howned,
    (forall_update_iff ctl fun _ l => l.descs.Nodup).mpr ⟨hnodup, fun q _ => h.nodup q⟩,
    (forall_update_iff ctl fun _ l => Prepared sh' l).mpr ⟨hprep, hothers⟩,
    fun q b hb => ?_, fun q q' b hb hb' => ?_, hhandled, htickets⟩
  · rw [hlocked]
    exact h.locked q b (hbufs q ▸ hb)
  · exact h.bufs q q' b (hbufs q ▸ hb) (hbufs q' ▸ hb')

theorem Inv.handled_update (h : Inv sh ctl) (hbump : ctl p ≠ .bump) (t : Ticket B)
    (ht : sh.handled = some t) : ∃ q, update ctl p l q = .bump := by
  obtain ⟨q, hq⟩ := h.handled t ht
  have hne : q ≠ p := by
    rintro rfl
    exact hbump hq
  exact ⟨q, by rwa [update_of_ne hne]⟩

theorem Inv.advance (h : Inv sh ctl) (halone : Alone ctl p) {l₀ : Control B}
    (hl : ctl p = l₀) (hdescs : l.descs = l₀.descs) (hbuf : l.buf? = l₀.buf?)
    (hprep : Prepared sh' l) (htickets : Tickets sh' (Waits (update ctl p l)))
    (hhandled : ∀ t, sh'.handled = some t → ∃ q, update ctl p l q = .bump)
    (hfree : sh'.free = sh.free) (hlocked : sh'.locked = sh.locked) (hdesc : sh'.desc = sh.desc)
    (hops : sh'.ops = sh.ops) (hperf : sh'.performed = sh.performed) :
    Inv sh' (update ctl p l) := by
  subst hl
  refine h.change ?_ (hdescs ▸ h.nodup p) hprep (fun q hq => ?_) hbuf hlocked hhandled htickets
  · rw [owns_update_same hdescs, hfree]
    exact h.owned
  · exact (h.prepared q).outer (halone q hq) (fun i _ => ⟨congrFun hdesc i, congrFun hops i⟩)
      fun t ht => hperf ▸ ht

theorem Inv.goto (h : Inv sh ctl) {l₀ : Control B} (hl : ctl p = l₀) (hdescs : l.descs = l₀.descs)
    (hticket : l.ticket? = l₀.ticket?) (hbuf : l.buf? = l₀.buf?) (hbump : l₀ ≠ .bump)
    (hprep : Prepared sh l) : Inv sh (update ctl p l) := by
  subst hl
  refine h.change ?_ (hdescs ▸ h.nodup p) hprep (fun q _ => h.prepared q) hbuf rfl (fun t ht => ?_)
    (h.tickets.congr (waits_update_same hticket))
  · rw [owns_update_same hdescs]
    exact h.owned
  · exact h.handled_update hbump t ht

omit [DecidableEq P] in
theorem Tickets.of_descs (h : Tickets sh W) (desc : Fin num → Desc B) (free : Fin num → Bool)
    (locked : B → Bool) : Tickets { sh with desc := desc, free := free, locked := locked } W :=
  ⟨h.avail, h.used, h.nodup, h.waiting, h.taken_le, h.serial, h.known, h.disk, h.info, h.status,
    h.flying, h.complete, h.once, h.fresh, h.past⟩

variable {r : Request B}

theorem Inv.alloc (h : Inv sh ctl) (halone : Alone ctl p)
    {old : Fin num → Bool} {idx : List (Fin num)} (hl : ctl p = .alloc3 r old idx)
    (hlen : idx.length < 3) {i : Fin num} (hi : sh.free i = true) :
    Inv { sh with free := update sh.free i false }
      (update ctl p (.alloc3 r old (idx ++ [i]))) := by
  have hdescs : (ctl p).descs = idx := by rw [hl]; rfl
  have hnot : i ∉ idx := by
    intro hmem
    have hf := h.free_eq_false (p := p) (hdescs.symm ▸ hmem)
    rw [hi] at hf
    cases hf
  have hprep := h.prepared_at hl
  refine h.change ?_ ?_ ⟨?_, fun x => ?_⟩ (fun q hq => ?_) ?_ rfl (fun t ht => ?_)
    ((h.tickets.of_descs sh.desc _ sh.locked).congr (waits_update_same (by rw [hl]; rfl)))
  · rw [owns_update (i := i) (o := some i) (by simp [owns, Control.descs])
      fun x hx => by rw [hdescs]; simp [Control.descs, hx]]
    have hnone : owns ctl (p, i) = none := by simp [owns, hdescs, hnot]
    refine (h.owned.assign hnone (Set.mem_univ i) (by simp [hi])).congr (fun x _ => ?_)
      fun _ => rfl
    by_cases hx : x = i
    · subst hx
      simp
    · simp [hx]
  · have hn := h.nodup p
    rw [hdescs] at hn
    exact hn.append (List.nodup_singleton i) (by simpa using hnot)
  · rw [List.length_append, List.length_singleton]
    omega
  · rw [hprep.2 x]
    by_cases hx : x = i
    · subst hx
      simp [hi]
    · simp [hx]
  · exact (h.prepared q).outer (halone q hq) (fun _ _ => ⟨rfl, rfl⟩) fun _ => id
  · rw [hl]
    rfl
  · exact h.handled_update (by simp [hl]) t ht

theorem Inv.freeAnd (h : Inv sh ctl) (halone : Alone ctl p)
    {l₀ : Control B} (hl : ctl p = l₀) {i : Fin num} (hdescs : l₀.descs = i :: l.descs)
    (hticket : l.ticket? = l₀.ticket?) (hbuf : l.buf? = l₀.buf?) (hbump : l₀ ≠ .bump)
    (hprep : Prepared { sh with
      desc := update sh.desc i ⟨.null, 0, 0, 0⟩
      free := update sh.free i true } l) :
    MoveSafe (fun l' sh' => Inv sh' (update ctl p l')) sh (freeAnd i l sh) := by
  subst hl
  have hmem : i ∈ (ctl p).descs := hdescs ▸ List.mem_cons_self
  have hfree := h.free_eq_false hmem
  have hnodup := h.nodup p
  rw [hdescs] at hnodup
  have hsafe : freeDesc i.val sh = .ok { sh with
      desc := update sh.desc i ⟨.null, 0, 0, 0⟩
      free := update sh.free i true } := by
    simp [freeDesc, hfree]
  rw [Virtio.freeAnd, hsafe]
  refine h.change ?_ (List.nodup_cons.mp hnodup).2 hprep (fun q hq => ?_) hbuf rfl (fun t ht => ?_)
    ((h.tickets.of_descs _ _ sh.locked).congr (waits_update_same hticket))
  · rw [owns_update (i := i) (o := none) (by simp [owns, (List.nodup_cons.mp hnodup).1])
      fun x hx => by simp [hdescs, hx]]
    refine (h.owned.release (owns_eq_some.mpr ⟨rfl, hmem⟩)).congr (fun x _ => ?_) fun _ => rfl
    by_cases hx : x = i
    · subst hx
      simp
    · simp [hx]
  · refine (h.prepared q).outer (halone q hq) (fun x hx => ⟨?_, rfl⟩) fun _ => id
    refine update_of_ne ?_ _ _
    rintro rfl
    exact hq (h.desc_inj hx hmem)
  · exact h.handled_update hbump t ht

omit [DecidableEq P] in
theorem Inv.waits_ne (h : Inv sh ctl) {b : B} (hb : (ctl p).buf? = some b) {i : Fin num}
    (hi : i ∈ (ctl p).descs) (hp : (ctl p).ticket? = none) {t : Ticket B} (ht : Waits ctl t) :
    t.buf ≠ b ∧ t.status ≠ i := by
  obtain ⟨q, hq⟩ := ht
  obtain ⟨hmem, -, hbuf⟩ := ticket_mem_descs hq
  have hne : p ≠ q := by
    rintro rfl
    rw [hp] at hq
    cases hq
  constructor
  · rintro rfl
    exact hne (h.bufs p q t.buf hb hbuf)
  · rintro rfl
    exact hne (h.desc_inj hi hmem)

variable {i j k : Fin num}

theorem Inv.format [DecidableEq B] (h : Inv sh ctl) (halone : Alone ctl p)
    (hl : ctl p = .format r i j k) : Inv (formatDescs r i j k sh)
      (update ctl p (.ring r sh.submitted.length i j k)) := by
  have hdescs : (ctl p).descs = [i, j, k] := by rw [hl]; rfl
  have hnodup := h.nodup p
  rw [hdescs] at hnodup
  have hne : i ≠ j ∧ i ≠ k ∧ j ≠ k := by
    simp only [List.nodup_cons, List.mem_cons, List.not_mem_nil, or_false, not_or] at hnodup
    exact ⟨hnodup.1.1, hnodup.1.2, hnodup.2.1⟩
  have hwaits {t : Ticket B} (ht : Waits ctl t) : t.buf ≠ r.buf ∧ t.status ≠ i :=
    h.waits_ne (by rw [hl]; rfl) (hdescs ▸ List.mem_cons_self) (by rw [hl]; rfl) ht
  refine h.change ?_ hnodup ⟨⟨?_, ?_, ?_, ?_⟩, rfl, ?_, ?_⟩ (fun q hq => ?_)
    (by rw [hl]; rfl) rfl (h.handled_update (by simp [hl]))
    ((h.tickets.format (fun t ht => (hwaits ht).1) fun t ht => (hwaits ht).2).congr
      (waits_update_same (by rw [hl]; rfl)))
  · rw [owns_update_same (by rw [hl]; rfl)]
    exact h.owned
  · simp [formatDescs, hne.1, hne.2.1]
  · simp [formatDescs, hne.2.2]
  · simp [formatDescs]
  · simp [formatDescs]
  · simp [formatDescs]
  · simp [formatDescs]
  · refine (h.prepared q).outer (halone q hq) (fun x hx => ?_) fun _ => id
    have hx' {y : Fin num} (hy : y ∈ [i, j, k]) : x ≠ y := by
      rintro rfl
      exact hq (h.desc_inj hx (hdescs.symm ▸ hy))
    have hi := hx' (y := i) (by simp)
    have hj := hx' (y := j) (by simp)
    have hk := hx' (y := k) (by simp)
    simp [formatDescs, hi, hj, hk]

omit [DecidableEq P] in
theorem Inv.ticket_new (h : Inv sh ctl) (serial : ℕ) {i : Fin num}
    (hbuf : (ctl p).buf? = some r.buf) (hi : i ∈ (ctl p).descs) (hp : (ctl p).ticket? = none)
    {t : Ticket B} (ht : Waits ctl t) :
    t.head ≠ (r.ticket serial i).head ∧ t.buf ≠ (r.ticket serial i).buf := by
  obtain ⟨hb, hs⟩ := h.waits_ne hbuf hi hp ht
  refine ⟨fun heq => hs (Fin.ext ?_), hb⟩
  rw [← h.apart.status t ht]
  exact heq

theorem Inv.ring (h : Inv sh ctl) (halone : Alone ctl p) {serial : ℕ}
    (hl : ctl p = .ring r serial i j k) :
    Inv { sh with availRing := update sh.availRing (Fin.ofNat num sh.availIdx.toNat) i }
      (update ctl p (.publish r serial i j k)) := by
  have hnew (t : Ticket B) (ht : Waits ctl t) := h.ticket_new (p := p) (r := r) (i := i) serial
    (by rw [hl]; rfl) (by rw [hl]; exact List.mem_cons_self) (by rw [hl]; rfl) ht
  have hroom := h.tickets.room h.apart (fun t ht => (hnew t ht).1) (fun t ht => (hnew t ht).2) rfl
  obtain ⟨hlinked, hserial, hdisk, hinfo⟩ := h.prepared_at hl
  exact h.advance halone hl rfl rfl
    ⟨⟨hlinked.first, hlinked.second, hlinked.third, hlinked.op⟩, hserial, hdisk, hinfo,
      update_self _ _ _⟩
    ((h.tickets.fill hroom i).congr (waits_update_same (by rw [hl]; rfl)))
    (h.handled_update (by simp [hl])) rfl rfl rfl rfl rfl

theorem Inv.publish (h : Inv sh ctl) (halone : Alone ctl p) {serial : ℕ}
    (hl : ctl p = .publish r serial i j k) : Inv { sh with
      availIdx := sh.availIdx + 1
      submitted := sh.submitted ++ [r.ticket serial i] }
      (update ctl p (.waitDisk r serial i j k)) := by
  have hnew (t : Ticket B) (ht : Waits ctl t) := h.ticket_new (p := p) (r := r) (i := i) serial
    (by rw [hl]; rfl) (by rw [hl]; exact List.mem_cons_self) (by rw [hl]; rfl) ht
  obtain ⟨hlinked, hserial, hdisk, hinfo, hring⟩ := h.prepared_at hl
  refine h.advance halone hl rfl rfl ⟨hlinked.first, hlinked.second, hlinked.third, hlinked.op⟩
    ((h.tickets.publish h.apart hserial (fun t ht => (hnew t ht).1) (fun t ht => (hnew t ht).2) rfl
      hring hdisk hinfo).congr fun t => ?_)
    (h.handled_update (by simp [hl])) rfl rfl rfl rfl rfl
  rw [waits_update, waits_iff p, hl]
  simp only [Control.ticket?, Option.some.injEq, reduceCtorEq, false_or]
  rw [or_comm, eq_comm]

theorem Inv.handled_none (h : Inv sh ctl) (halone : Alone ctl p)
    (hp : ctl p ≠ .bump) : sh.handled = none := by
  by_contra hne
  obtain ⟨t, ht⟩ := Option.ne_none_iff_exists'.mp hne
  obtain ⟨q, hq⟩ := h.handled t ht
  by_cases hqp : q = p
  · exact hp (hqp ▸ hq)
  · have hinner := halone q hqp
    rw [hq] at hinner
    cases hinner

theorem Inv.leave (h : Inv sh ctl) (halone : Alone ctl p) {serial : ℕ}
    (hl : ctl p = .waitDisk r serial i j k) (hdisk : sh.disk r.buf = false) :
    Inv { sh with info := update sh.info i { sh.info i with b := none } }
      (update ctl p (.freeChain r (r.ticket serial i) i [i, j, k])) := by
  have hnone := h.handled_none halone (by simp [hl])
  have hprep := h.prepared_at hl
  have hwaits : Waits ctl (r.ticket serial i) := ⟨p, by rw [hl]; rfl⟩
  refine h.advance halone hl rfl rfl
    ⟨⟨h.tickets.complete _ hwaits hdisk, rfl, rfl, rfl⟩, rfl, ?_, ?_⟩ ?_
    (h.handled_update (by simp [hl])) rfl rfl rfl rfl rfl
  · simp only [hprep.first]
    decide
  · simp only [hprep.first]
    refine ⟨rfl, ?_, ?_⟩
    · simp only [hprep.second]
      split <;> decide
    · simp only [hprep.second, Chain, hprep.third, true_and]
      decide
  · refine h.tickets.leave h.apart hnone hdisk (fun t => ?_) hwaits
    rw [waits_update, waits_iff p, hl]
    simp only [Control.ticket?, Option.some.injEq, reduceCtorEq, false_or]
    constructor
    · rintro ⟨q, hqp, hq⟩
      refine ⟨.inr ⟨q, hqp, hq⟩, ?_⟩
      rintro rfl
      exact hqp (h.desc_inj (ticket_mem_descs hq).1 (by rw [hl]; exact List.mem_cons_self))
    · rintro ⟨heq | hq, hne⟩
      · exact absurd heq.symm hne
      · exact hq

theorem Inv.handle [DecidableEq B] (h : Inv sh ctl)
    (halone : Alone ctl p) (hl : ctl p = .scan)
    (hne : sh.usedIdx ≠ sh.usedRingIdx) :
    MoveSafe (fun l' sh' => Inv sh' (update ctl p l')) sh (handle sh) := by
  have hnone := h.handled_none halone (by simp [hl])
  have hused := h.tickets.used
  rw [hnone] at hused
  have hposted : sh.posted ≠ [] := by
    intro hnil
    refine hne (UInt16.toNat_inj.mp ((hused.eq_iff num_lt).mpr ?_))
    simp [hnil]
  obtain ⟨t, ts, hts⟩ := List.exists_cons_of_ne_nil hposted
  have hflight : t ∈ sh.flight := by simp [Shared.flight, hts]
  have hwaits := h.tickets.waiting t (Tickets.mem_present_of_flight hflight)
  have hid : sh.usedRing (Fin.ofNat num sh.usedIdx.toNat) = t.head := by
    simp only [Option.toList_none, List.nil_append, hts, List.map_cons] at hused
    exact hused.head
  have hhead := h.apart.status t hwaits
  have hlt : sh.usedRing (Fin.ofNat num sh.usedIdx.toNat) < num := by
    rw [hid, hhead]
    exact t.status.isLt
  have hfin : (⟨sh.usedRing (Fin.ofNat num sh.usedIdx.toNat), hlt⟩ : Fin num) = t.status :=
    Fin.ext (hid.trans hhead)
  have hstatus : (sh.info t.status).status = 0 := h.tickets.status t (by simp [hts])
  simp only [Virtio.handle, dif_pos hlt, hfin, hstatus, h.tickets.info t hflight, ne_eq,
    not_true_eq_false, if_false]
  rw [hts]
  exact h.advance halone hl rfl rfl ⟨t, rfl⟩
    ((h.tickets.handle h.apart hnone hts).congr (waits_update_same (by rw [hl]; rfl)))
    (fun _ _ => ⟨p, update_self _ _ _⟩) rfl rfl rfl rfl rfl

theorem Inv.bump (h : Inv sh ctl) (halone : Alone ctl p)
    (hl : ctl p = .bump) :
    Inv { sh with usedIdx := sh.usedIdx + 1, handled := none } (update ctl p .scan) := by
  obtain ⟨t, ht⟩ := h.prepared_at hl
  exact h.advance halone hl rfl rfl trivial
    ((h.tickets.bump ht).congr (waits_update_same (by rw [hl]; rfl))) nofun rfl rfl rfl rfl rfl

omit [DecidableEq P] in
theorem Inv.fetch (h : Inv sh ctl) {t : Ticket B} (ht : Waits ctl t) :
    fetch sh t.serial t.head = some t := by
  obtain ⟨p, hp⟩ := ht
  have hprep := h.prepared p
  generalize ctl p = l at hp hprep
  cases l <;> cases hp
  rename_i r serial i j k
  have hflags : ((if r.write then 0 else vringDescFWrite) ||| vringDescFNext) &&&
      vringDescFNext ≠ 0 := by
    split <;> decide
  have hthird : vringDescFWrite &&& vringDescFNext = 0 := by decide
  have hfirst : vringDescFNext ≠ 0 := by decide
  simp [Virtio.fetch, Request.ticket, descAt, hprep.first, hprep.second, hprep.third, hprep.op,
    hflags, hthird, hfirst]

theorem Chain.congr {desc desc' : Fin num → Desc B} {i : ℕ} {rest : List (Fin num)}
    (h : Chain desc i rest) (hsame : ∀ x ∈ rest, desc' x = desc x) : Chain desc' i rest := by
  match rest, h with
  | [x], h => exact ⟨h.1, by rw [hsame x List.mem_cons_self]; exact h.2⟩
  | x :: y :: rest, h =>
    have hx := hsame x List.mem_cons_self
    refine ⟨h.1, by rw [hx]; exact h.2.1, ?_⟩
    rw [hx]
    exact Chain.congr h.2.2 fun z hz => hsame z (List.mem_cons_of_mem x hz)

theorem Inv.freeChain [DecidableEq B] (h : Inv sh ctl) (halone : Alone ctl p)
    {t : Ticket B} {i : ℕ} {rest : List (Fin num)} (hl : ctl p = .freeChain r t i rest) :
    MoveSafe (fun l' sh' => Inv sh' (update ctl p l')) sh
      (move (.freeChain r t i rest) sh) := by
  obtain ⟨hperf, hchain⟩ := h.prepared_at hl
  have hnodup := h.nodup p
  rw [hl] at hnodup
  have hdesc (x : Fin num) : descAt sh x.val = some (sh.desc x) := by simp [descAt]
  match rest, hchain with
  | [x], ⟨hx, hflags⟩ =>
    subst hx
    simp only [move, hdesc, hflags, ne_eq, not_true_eq_false, if_false]
    exact h.freeAnd halone hl rfl rfl rfl nofun hperf
  | x :: y :: rest, ⟨hx, hflags, hlinks⟩ =>
    subst hx
    simp only [move, hdesc, if_pos hflags]
    refine h.freeAnd halone hl rfl rfl rfl nofun
      ⟨hperf, hlinks.congr fun z hz => update_of_ne ?_ _ _⟩
    rintro rfl
    exact (List.nodup_cons.mp hnodup).1 hz

/-! ### The steps of the driver and the device -/

theorem move_alloc3 [DecidableEq B] (sh : Shared B) (r : Request B) (old : Fin num → Bool)
    {idx : List (Fin num)} (hlen : idx.length < 3) :
    move (.alloc3 r old idx) sh =
      match allocDesc sh with
      | some (i, sh') => .stay (.alloc3 r old (idx ++ [i])) sh'
      | none => .stay (.undo r old idx) sh := by
  match idx, hlen with
  | [], _ => rfl
  | [_], _ => rfl
  | [_, _], _ => rfl

theorem allocDesc_cases (sh : Shared B) :
    (∃ i, sh.free i = true ∧
      allocDesc sh = some (i, { sh with free := update sh.free i false })) ∨
    (∀ i, sh.free i = false) ∧ allocDesc sh = none := by
  rw [allocDesc]
  cases hfind : (List.finRange num).find? sh.free with
  | none =>
    refine .inr ⟨fun i => ?_, rfl⟩
    have hi := List.find?_eq_none.mp hfind i (List.mem_finRange i)
    simpa using hi
  | some i => exact .inl ⟨i, List.find?_some hfind, rfl⟩

theorem freeCount_le {old : Fin num → Bool} {idx : List (Fin num)}
    (h : ∀ i, old i = true → i ∈ idx) : freeCount old ≤ idx.length := by
  refine le_trans (Finset.card_le_card fun i hi => ?_) (List.toFinset_card_le idx)
  rw [List.mem_toFinset]
  exact h i (Finset.mem_filter.mp hi).2

theorem move_inv [DecidableEq B] (h : Inv sh ctl)
    (halone : Alone ctl p) (hl : ctl p = l) :
    MoveSafe (fun l' sh' => Inv sh' (update ctl p l')) sh (move l sh) := by
  have hprep := h.prepared_at hl
  have hself : Inv sh (update ctl p l) := by
    rw [← hl, update_eq_self]
    exact h
  cases l with
  | retry r => exact h.goto hl rfl rfl rfl nofun ⟨by simp, by simp⟩
  | alloc3 r old idx =>
    rcases Nat.lt_or_ge idx.length 3 with hlen | hlen
    · rw [move_alloc3 sh r old hlen]
      rcases allocDesc_cases sh with ⟨i, hi, halloc⟩ | ⟨hnone, halloc⟩
      · rw [halloc]
        exact h.alloc halone hl hlen hi
      · rw [halloc]
        refine h.goto hl rfl rfl rfl nofun
          ⟨lt_of_le_of_lt (freeCount_le fun i hi => ?_) hlen, hprep.2⟩
        exact ((hprep.2 i).mp hi).resolve_left (by simp [hnone i])
    · match idx, hprep.1, hlen with
      | [i, j, k], _, _ => exact h.goto hl rfl rfl rfl nofun trivial
  | undo r old idx =>
    cases idx with
    | nil =>
      refine h.goto hl rfl rfl rfl nofun ⟨hprep.1, ?_⟩
      funext i
      have hi := hprep.2 i
      simp only [List.not_mem_nil, or_false] at hi
      exact Bool.eq_iff_iff.mpr hi.symm
    | cons i idx =>
      refine h.freeAnd halone hl rfl rfl rfl nofun ⟨hprep.1, fun x => ?_⟩
      rw [hprep.2 x]
      by_cases hx : x = i
      · subst hx
        simp
      · simp [hx]
  | full r old => exact h.goto hl rfl rfl rfl nofun trivial
  | format r i j k => exact h.format halone hl
  | ring r serial i j k => exact h.ring halone hl
  | publish r serial i j k => exact h.publish halone hl
  | waitDisk r serial i j k =>
    simp only [move]
    split_ifs with hdisk
    · exact hself
    · exact h.leave halone hl (by simpa using hdisk)
  | freeChain r t i rest => exact h.freeChain halone hl
  | done r t => exact h.goto hl rfl rfl rfl nofun hprep
  | scan =>
    simp only [move]
    split_ifs with hne
    · exact h.handle halone hl hne
    · exact h.goto hl rfl rfl rfl nofun trivial
  | bump => exact h.bump halone hl
  | idle => exact hself
  | device => exact hself
  | rw r => exact hself
  | returned r t => exact hself
  | intr => exact hself

omit [DecidableEq P] in
theorem Prepared.device {l : Control B} (h : Prepared sh l) (hdesc : sh'.desc = sh.desc)
    (hops : sh'.ops = sh.ops) (hfree : sh'.free = sh.free) (hsub : sh'.submitted = sh.submitted)
    (hdisk : sh'.disk = sh.disk) (hinfo : ∀ i, (sh'.info i).b = (sh.info i).b)
    (hring : sh'.availRing = sh.availRing) (hidx : sh'.availIdx = sh.availIdx)
    (hhandled : sh'.handled = sh.handled) (hperf : ∀ t ∈ sh.performed, t ∈ sh'.performed) :
    Prepared sh' l := by
  have hlinked {r : Request B} {i j k : Fin num} (h : Linked sh r i j k) : Linked sh' r i j k :=
    ⟨hdesc ▸ h.first, hdesc ▸ h.second, hdesc ▸ h.third, hops ▸ h.op⟩
  cases l with
  | alloc3 r old idx => exact ⟨h.1, hfree ▸ h.2⟩
  | undo r old idx => exact ⟨h.1, hfree ▸ h.2⟩
  | full r old => exact ⟨h.1, hfree ▸ h.2⟩
  | ring r serial i j k =>
    obtain ⟨hl, hs, hd, hi⟩ := h
    exact ⟨hlinked hl, hsub ▸ hs, hdisk ▸ hd, (hinfo i).trans hi⟩
  | publish r serial i j k =>
    obtain ⟨hl, hs, hd, hi, hr⟩ := h
    exact ⟨hlinked hl, hsub ▸ hs, hdisk ▸ hd, (hinfo i).trans hi, by rw [hring, hidx]; exact hr⟩
  | waitDisk r serial i j k => exact hlinked h
  | freeChain r t i rest => exact ⟨⟨hperf t h.1.1, h.1.2⟩, hdesc ▸ h.2⟩
  | done r t => exact ⟨hperf t h.1, h.2⟩
  | returned r t => exact ⟨hperf t h.1, h.2⟩
  | bump =>
    obtain ⟨t, ht⟩ := h
    exact ⟨t, hhandled.trans ht⟩
  | _ => trivial

omit [DecidableEq P] in
theorem device_inv [DecidableEq B] (h : Inv sh ctl) {k : Choice B}
    (hs : deviceStep k sh = some sh') : Inv sh' ctl := by
  cases k with
  | take =>
    simp only [deviceStep] at hs
    split_ifs at hs with hne
    obtain ⟨t, hfetch, rfl⟩ := Option.map_eq_some_iff.mp hs
    have hqueue : sh.queue ≠ [] := by
      intro hnil
      refine hne (UInt16.toNat_inj.mp ((h.tickets.avail.eq_iff num_lt).mpr ?_))
      simp [hnil]
    obtain ⟨t', q, hq⟩ := List.exists_cons_of_ne_nil hqueue
    have hhead : sh.availRing (Fin.ofNat num sh.device.seen.toNat) = t'.head := by
      have havail := h.tickets.avail
      rw [hq] at havail
      exact havail.head
    have hserial : t'.serial = sh.device.taken := by
      refine h.tickets.serial _ _ ?_
      rw [← List.head?_drop, show sh.submitted.drop sh.device.taken = t' :: q from hq]
      rfl
    have hpresent : t' ∈ sh.present := by simp [Shared.present, Shared.flight, hq]
    rw [hhead, ← hserial, h.fetch (h.tickets.waiting t' hpresent)] at hfetch
    cases hfetch
    refine ⟨h.owned, h.nodup, fun p => ?_, h.locked, h.bufs, h.handled, h.tickets.take hq⟩
    exact (h.prepared p).device rfl rfl rfl rfl rfl (fun _ => rfl) rfl rfl rfl fun _ => id
  | perform t =>
    simp only [deviceStep] at hs
    split_ifs at hs with ht
    cases hs
    refine ⟨h.owned, h.nodup, fun p => ?_, h.locked, h.bufs, h.handled, h.tickets.perform ht⟩
    refine (h.prepared p).device rfl rfl rfl rfl rfl (fun i => ?_) rfl rfl rfl
      fun _ => List.mem_append_left _
    by_cases hi : i = t.status
    · subst hi
      simp
    · simp [hi]
  | post t =>
    simp only [deviceStep] at hs
    split_ifs at hs with ht
    cases hs
    refine ⟨h.owned, h.nodup, fun p => ?_, h.locked, h.bufs, h.handled, h.tickets.post h.apart ht⟩
    exact (h.prepared p).device rfl rfl rfl rfl rfl (fun _ => rfl) rfl rfl rfl fun _ => id
  | rw r => cases hs
  | unlock => cases hs
  | intr => cases hs

theorem Inv.relock (h : Inv sh ctl) {l₀ : Control B} (hl : ctl p = l₀) {locked : B → Bool}
    (hdescs : l.descs = l₀.descs) (hticket : l.ticket? = l₀.ticket?) (hbump : l₀ ≠ .bump)
    (hprep : Prepared sh l)
    (hself : ∀ b, l.buf? = some b → locked b = true)
    (hothers : ∀ q b, q ≠ p → (ctl q).buf? = some b → locked b = true ∧ l.buf? ≠ some b) :
    Inv { sh with locked := locked } (update ctl p l) := by
  subst hl
  have hkeep {l : Control B} (hl : Prepared sh l) : Prepared { sh with locked := locked } l :=
    hl.device rfl rfl rfl rfl rfl (fun _ => rfl) rfl rfl rfl fun _ => id
  refine ⟨?_,
    (forall_update_iff ctl fun _ l => l.descs.Nodup).mpr
      ⟨hdescs ▸ h.nodup p, fun q _ => h.nodup q⟩,
    (forall_update_iff ctl fun _ l => Prepared { sh with locked := locked } l).mpr
      ⟨hkeep hprep, fun q _ => hkeep (h.prepared q)⟩,
    (forall_update_iff ctl fun _ l => ∀ b, l.buf? = some b → locked b = true).mpr
      ⟨hself, fun q hq b hb => (hothers q b hq hb).1⟩,
    fun q q' b hb hb' => ?_, h.handled_update hbump,
    (h.tickets.congr (waits_update_same hticket)).of_descs sh.desc sh.free locked⟩
  · rw [owns_update_same hdescs]
    exact h.owned
  · by_cases hq : q = p <;> by_cases hq' : q' = p
    · rw [hq, hq']
    · subst hq
      rw [update_self] at hb
      rw [update_of_ne hq'] at hb'
      exact absurd hb (hothers q' b hq' hb').2
    · subst hq'
      rw [update_self] at hb'
      rw [update_of_ne hq] at hb
      exact absurd hb' (hothers q b hq hb).2
    · rw [update_of_ne hq] at hb
      rw [update_of_ne hq'] at hb'
      exact h.bufs q q' b hb hb'

theorem run_inv [DecidableEq B] (h : Inv sh ctl) (hl : ctl p = l) {k : Choice B} {l' : Control B}
    (hs : run k l sh = some (l', sh')) : Inv sh' (update ctl p l') := by
  cases l with
  | device =>
    have hdev : (deviceStep k sh).map (fun sh' => (Control.device, sh')) = some (l', sh') := by
      cases k <;> exact hs
    obtain ⟨sh₁, hstep, heq⟩ := Option.map_eq_some_iff.mp hdev
    cases heq
    rw [← hl, update_eq_self]
    exact device_inv h hstep
  | idle =>
    cases k with
    | rw r =>
      simp only [run] at hs
      split_ifs at hs with hlocked
      cases hs
      refine h.relock hl rfl rfl nofun trivial ?_ fun q b _ hb => ?_
      · rintro b ⟨⟩
        exact update_self r.buf true sh.locked
      · have hheld := h.locked q b hb
        have hne : b ≠ r.buf := by
          rintro rfl
          exact hlocked hheld
        exact ⟨(update_of_ne hne true sh.locked).trans hheld,
          by simpa [Control.buf?] using hne.symm⟩
    | intr =>
      cases hs
      exact h.goto hl rfl rfl rfl nofun trivial
    | _ => cases hs
  | returned r t =>
    cases k with
    | rw r' =>
      simp only [run] at hs
      split_ifs at hs with hb
      cases hs
      exact h.goto hl rfl rfl (by simp [Control.buf?, hb]) nofun trivial
    | unlock =>
      cases hs
      refine h.relock hl rfl rfl nofun trivial nofun fun q b hq hb => ⟨?_, nofun⟩
      have hne : b ≠ r.buf := by
        rintro rfl
        exact hq (h.bufs q p r.buf hb (by rw [hl]; rfl))
      exact (update_of_ne hne false sh.locked).trans (h.locked q b hb)
    | _ => cases hs
  | _ => cases k <;> cases hs

/-! ### Whole runs -/

def Blocked : Chan B → Shared B → Prop
  | .free, sh => freeCount sh.free < 3
  | .buf b, sh => sh.disk b = true

section Runs

variable [DecidableEq B] {n : ℕ} {s t : DiskUsers B n}

omit [DecidableEq B] in
theorem freeAnd_wakes (i : ℕ) (l : Control B) (sh : Shared B) :
    MoveWakes Blocked sh (freeAnd i l sh) := by
  simp only [freeAnd, freeDesc]
  split_ifs with hi hfree
  · trivial
  · rintro (- | b) hc hb
    · exact absurd rfl hc
    · exact hb
  · trivial

theorem handle_wakes (sh : Shared B) : MoveWakes Blocked sh (handle sh) := by
  simp only [handle]
  split_ifs with hi hstatus
  · trivial
  · split
    · trivial
    · rename_i b hb
      rintro (- | b') hc hblocked
      · exact hblocked
      · have hne : b' ≠ b := fun heq => hc (congrArg Chan.buf heq)
        exact (update_of_ne hne false sh.disk).trans hblocked
  · trivial

theorem freeCount_alloc (free : Fin num → Bool) (i : Fin num) :
    freeCount (update free i false) ≤ freeCount free := by
  refine Finset.card_le_card fun x hx => ?_
  simp only [Finset.mem_filter, Finset.mem_univ, true_and] at hx ⊢
  by_cases hxi : x = i
  · subst hxi
    simp at hx
  · rwa [update_of_ne hxi] at hx

theorem move_wakes {l : Control B} {sh : Shared B} (hprep : Prepared sh l) :
    MoveWakes Blocked sh (move l sh) := by
  cases l with
  | alloc3 r old idx =>
    rcases Nat.lt_or_ge idx.length 3 with hlen | hlen
    · rw [move_alloc3 sh r old hlen]
      rcases allocDesc_cases sh with ⟨i, -, halloc⟩ | ⟨-, halloc⟩
      · rw [halloc]
        rintro (- | b) hb
        · exact lt_of_le_of_lt (freeCount_alloc sh.free i) hb
        · exact hb
      · rw [halloc]
        exact fun _ => id
    · match idx, hprep.1, hlen with
      | [i, j, k], _, _ => exact fun _ => id
  | undo r old idx =>
    cases idx with
    | nil => exact fun _ => id
    | cons i idx => exact freeAnd_wakes i _ sh
  | full r old =>
    obtain ⟨hlt, rfl⟩ := hprep
    exact hlt
  | format r i j k =>
    rintro (- | b) hb
    · exact hb
    · by_cases hbuf : b = r.buf
      · subst hbuf
        exact update_self r.buf true sh.disk
      · exact (update_of_ne hbuf true sh.disk).trans hb
  | waitDisk r serial i j k =>
    simp only [move]
    split_ifs with hdisk
    · exact hdisk
    · rintro (- | b) hb <;> exact hb
  | freeChain r t i rest =>
    simp only [move]
    split
    · trivial
    · split_ifs <;> exact freeAnd_wakes i _ sh
  | scan =>
    simp only [move]
    split_ifs
    · exact handle_wakes sh
    · exact fun _ => id
  | done r t => exact fun _ => id
  | _ => rintro (- | b) hb <;> exact hb

theorem monitor_inner : Inner (monitor B n) Control.inner := by
  refine ⟨fun p l sh l' sh' hm => ?_, fun p l sh c l' hm => ?_, fun p k l sh l' sh' hr => ?_⟩
  · simp only [monitor, move, freeAnd, handle] at hm
    repeat' split at hm
    all_goals cases hm
    all_goals rfl
  · simp only [monitor, move, freeAnd, handle] at hm
    repeat' split at hm
    all_goals cases hm
    all_goals rfl
  · simp only [monitor, run] at hr
    split at hr
    · split_ifs at hr
      cases hr
      rfl
    · split_ifs at hr
      cases hr
      rfl
    · cases hr
      rfl
    · cases hr
      rfl
    · obtain ⟨sh₁, -, heq⟩ := Option.map_eq_some_iff.mp hr
      cases heq
      rfl
    · cases hr

theorem deviceStep_same {k : Choice B} {sh sh' : Shared B} (hs : deviceStep k sh = some sh') :
    sh'.free = sh.free ∧ sh'.disk = sh.disk := by
  cases k with
  | take =>
    simp only [deviceStep] at hs
    split_ifs at hs
    obtain ⟨t, -, rfl⟩ := Option.map_eq_some_iff.mp hs
    exact ⟨rfl, rfl⟩
  | perform t =>
    simp only [deviceStep] at hs
    split_ifs at hs
    cases hs
    exact ⟨rfl, rfl⟩
  | post t =>
    simp only [deviceStep] at hs
    split_ifs at hs
    cases hs
    exact ⟨rfl, rfl⟩
  | _ => cases hs

theorem run_same {k : Choice B} {l l' : Control B} {sh sh' : Shared B}
    (hr : run k l sh = some (l', sh')) : sh'.free = sh.free ∧ sh'.disk = sh.disk := by
  simp only [run] at hr
  split at hr
  · split_ifs at hr
    cases hr
    exact ⟨rfl, rfl⟩
  · split_ifs at hr
    cases hr
    exact ⟨rfl, rfl⟩
  · cases hr
    exact ⟨rfl, rfl⟩
  · cases hr
    exact ⟨rfl, rfl⟩
  · obtain ⟨sh₁, hstep, heq⟩ := Option.map_eq_some_iff.mp hr
    cases heq
    exact deviceStep_same hstep
  · cases hr

structure Sound (s : DiskUsers B n) : Prop where
  lock : LockExact s
  inner : InnerWorks Control.inner s
  inv : Inv s.shared s.control
  sleepers : NoLostWakeup Blocked s
  calm : s.panicked = none

theorem wakesUp : WakesUp (monitor B n) (fun s => Inv s.shared s.control) Blocked := by
  refine wakesUp_of_moves (fun p => ?_) (fun s p l h hl => ?_) fun p k l sh l' sh' hr c hc => ?_
  · cases p <;> simp [monitor]
  · have hprep := h.prepared p
    rw [State.control, hl] at hprep
    exact move_wakes hprep
  · obtain ⟨hfree, hdisk⟩ := run_same hr
    cases c with
    | free => exact (congrArg (freeCount · < 3) hfree).mpr hc
    | buf b => exact (congrFun hdisk b).trans hc

omit [DecidableEq B] in
theorem enter_inv {P : Type} [DecidableEq P] {ctl : P → Control B} {sh : Shared B}
    (h : Inv sh ctl) {p : P} {l l' : Control B} (hl : ctl p = l) (he : enter l = some l') :
    Inv sh (update ctl p l') := by
  cases l with
  | rw r =>
    cases he
    exact h.goto hl rfl rfl rfl nofun trivial
  | intr =>
    cases he
    exact h.goto hl rfl rfl rfl nofun trivial
  | _ => cases he

theorem Sound.step (h : Sound s) (hv : StepView (monitor B n) s e t) : Sound t := by
  obtain ⟨hinv, hcalm⟩ := effect_keeps (Q := fun sh ctl => Inv sh ctl) h.inv
    (fun p l l' hl he => enter_inv h.inv (control_eq hl) he)
    (fun p l hl => move_inv h.inv
      (fun q hq => h.inner.unique h.lock (by rw [hl]; rfl) hq) (control_eq hl))
    (fun p k l l' sh' hl hr => run_inv h.inv (control_eq hl) hr) hv.effect
  exact ⟨h.lock.step hv, h.inner.step monitor_inner hv, hinv, h.sleepers.step wakesUp h.inv hv,
    hcalm.trans h.calm⟩

omit [DecidableEq B] in
theorem Initial.sound (h : Initial s) : Sound s := by
  have hctl (p : Party n) : s.control p = .idle ∨ s.control p = .device := by
    cases p with
    | none =>
      rw [State.control, h.dev]
      exact .inr rfl
    | some p =>
      rw [State.control, h.user]
      exact .inl rfl
  have hdescs (p : Party n) : (s.control p).descs = [] := by
    rcases hctl p with hp | hp <;> rw [hp] <;> rfl
  have hbuf (p : Party n) : (s.control p).buf? = none := by
    rcases hctl p with hp | hp <;> rw [hp] <;> rfl
  have hwaits (t : Ticket B) : ¬ Waits s.control t := by
    rintro ⟨p, hp⟩
    rcases hctl p with hp' | hp' <;> rw [hp'] at hp <;> cases hp
  have hout (p : Party n) : ∃ l, s.phase p = .outside l ∧ l.inner = false := by
    cases p with
    | none => exact ⟨.device, h.dev, rfl⟩
    | some p => exact ⟨.idle, h.user p, rfl⟩
  have htickets : Tickets s.shared (Waits s.control) := by
    have hpresent : s.shared.present = [] := by
      simp [Shared.present, Shared.flight, Shared.queue, h.handled, h.posted, h.submitted, h.device]
    constructor
    case avail =>
      simp only [Shared.queue, h.submitted, h.device, h.availIdx, List.drop_nil]
      exact .nil (by decide)
    case used =>
      simp only [h.handled, h.posted, h.usedIdx, h.usedRingIdx]
      exact .nil (by decide)
    all_goals
      simp [hpresent, Shared.flight, Shared.queue, h.handled, h.posted, h.submitted, h.device,
        h.performed, hwaits]
  refine ⟨fun p => ?_, fun p hp => ?_, ⟨⟨?_, ?_, ?_⟩, ?_, fun p => ?_, ?_, ?_, ?_, htickets⟩,
    fun p c hp => ?_, h.panicked⟩
  · obtain ⟨l, hl, -⟩ := hout p
    simp [h.lock, hl, Phase.holds]
  · obtain ⟨l, hl, hinner⟩ := hout p
    simp [State.control, hl, Phase.control, hinner] at hp
  · rintro ⟨p, i⟩ j hj
    exact Set.mem_univ j
  · rintro ⟨p, i⟩ o j hj
    simp [owns, hdescs] at hj
  · rintro i -
    simp [h.free, owns, hdescs]
  · simp [hdescs]
  · rcases hctl p with hp | hp <;> rw [hp] <;> trivial
  · simp [hbuf]
  · simp [hbuf]
  · simp [h.handled]
  · obtain ⟨l, hl, -⟩ := hout p
    rw [hl] at hp
    cases hp

/-- For every interleaving of calls, interrupts and steps of the device, and whatever the
indices of the rings have wrapped around to: a descriptor is free or belongs to one call; the
requests in flight are those of waiting calls, and the device finds them intact; a call that
returns has had its own request performed, once, on its own buffer, and the completion is
used up; the driver does not panic; `alloc3_desc` fails without a change of `free`; and while the
lock is free nobody sleeps with three descriptors free. -/
theorem completions_match (s : DiskUsers B n) (h : Reachable Initial (monitor B n).Step s) :
    (∀ i, s.shared.free i = false ↔ ∃ p, i ∈ (s.control p).descs) ∧
      (∀ p, (s.control p).descs.Nodup) ∧
      (∀ p q i, i ∈ (s.control p).descs → i ∈ (s.control q).descs → p = q) ∧
      (∀ t ∈ s.shared.flight, fetch s.shared t.serial t.head = some t ∧
        ∃ p r j k, s.control p = .waitDisk r t.serial t.status j k ∧
          t = r.ticket t.serial t.status) ∧
      (∀ p r t, s.control p = .returned r t →
        t ∈ s.shared.performed ∧ t ∉ s.shared.flight ∧ s.shared.submitted[t.serial]? = some t ∧
          t.buf = r.buf ∧ t.out = r.write ∧ t.sector = r.sector) ∧
      s.shared.performed.Nodup ∧ s.panicked = none ∧
      (∀ p r old, s.control p = .full r old → s.shared.free = old) ∧
      (∀ p, s.lock = none → (s.phase p).waitsOn = some .free → freeCount s.shared.free < 3) := by
  have hsound : Sound s :=
    h.invariant (fun s hs => hs.sound) fun s e t hs hst => hs.step hst.view.2
  have hinv := hsound.inv
  refine ⟨fun i => ⟨fun hi => ?_, fun ⟨p, hp⟩ => hinv.free_eq_false hp⟩, hinv.nodup,
    fun p q i => hinv.desc_inj, fun t ht => ?_, fun p r t hp => ?_, hinv.tickets.once, hsound.calm,
    fun p r old hp => ?_, fun p hlock hp => hsound.sleepers.blocked hsound.lock hlock hp⟩
  · obtain ⟨⟨p, j⟩, hp⟩ := (hinv.owned.used_iff (Set.mem_univ i)).mp (by simp [hi])
    obtain ⟨rfl, hmem⟩ := owns_eq_some.mp hp
    exact ⟨p, hmem⟩
  · have hwaits := hinv.tickets.waiting t (Tickets.mem_present_of_flight ht)
    refine ⟨hinv.fetch hwaits, ?_⟩
    obtain ⟨p, hp⟩ := hwaits
    cases hctl : s.control p <;> rw [hctl] at hp <;> cases hp
    exact ⟨p, _, _, _, hctl, rfl⟩
  · have hprep := hinv.prepared p
    rw [hp] at hprep
    obtain ⟨hperf, hbuf, hout, hsector⟩ := hprep
    refine ⟨hperf, fun hflight => ?_, hinv.tickets.known t (.inr hperf), hbuf, hout, hsector⟩
    obtain ⟨q, hq⟩ := hinv.tickets.waiting t (Tickets.mem_present_of_flight hflight)
    have hqbuf : (s.control q).buf? = some r.buf := hbuf ▸ (ticket_mem_descs hq).2.2
    obtain rfl := hinv.bufs q p r.buf hqbuf (by rw [hp]; rfl)
    rw [hp] at hq
    cases hq
  · have hprep := hinv.prepared p
    rw [hp] at hprep
    exact hprep.2

def quietDisk : DiskUsers Unit 2 where
  shared :=
    { desc := fun _ => ⟨.null, 0, 0, 0⟩, availIdx := 0, availRing := fun _ => 0, usedRingIdx := 0
      usedRing := fun _ => 0, free := fun _ => true, usedIdx := 0, info := fun _ => ⟨none, 0⟩
      ops := fun _ => ⟨false, 0⟩, disk := fun _ => false, locked := fun _ => false
      device := ⟨0, 0, [], []⟩, submitted := [], performed := [], posted := [], handled := none }
  lock := none
  phase p := .outside (if p.isSome then .idle else .device)
  panicked := none

theorem initial_quietDisk : Initial quietDisk := by
  constructor <;> intros <;> rfl

/-- The first caller writes block 5 and waits, the device performs the request, the second caller
handles the interrupt, and the first one returns. -/
def writeBlock : List (Event (Party 2) (Choice Unit)) :=
  [.run (some 0) (.rw ⟨(), 5, true⟩), .acquire (some 0)] ++ List.replicate 9 (.move (some 0)) ++
    [.park (some 0), .doze (some 0), .run none .take,
      .run none (.perform ⟨0, 0, (), true, 10, 0⟩), .run none (.post ⟨0, 0, (), true, 10, 0⟩),
      .run (some 1) .intr, .acquire (some 1), .move (some 1), .visit (some 1), .visit (some 1),
      .visit (some 1), .move (some 1), .move (some 1), .acquire (some 0), .move (some 0)] ++
    (List.replicate 3
      [.move (some 0), .visit (some 0), .visit (some 0), .visit (some 0)]).flatten ++
    [.move (some 0)]

theorem completions_match_writeBlock :
    ∃ s, Reachable Initial (monitor Unit 2).Step s ∧
      (∃ r t, s.control (some 0) = .returned r t ∧ t ∈ s.shared.performed) ∧
      s.panicked = none := by
  have hrun : (exec (monitor Unit 2).next quietDisk writeBlock).any (fun s =>
      match s.control (some 0) with
      | .returned _ _ => true
      | _ => false) = true := by decide +kernel
  obtain ⟨s, hs, hprop⟩ := (Option.any_eq_true _ _).mp hrun
  have hreach : Reachable Initial (monitor Unit 2).Step s :=
    ⟨_, _, initial_quietDisk, run_of_exec hs⟩
  obtain ⟨-, -, -, -, hreturned, -, hcalm, -⟩ := completions_match s hreach
  refine ⟨s, hreach, ?_, hcalm⟩
  cases hctl : s.control (some 0) <;> rw [hctl] at hprop <;> try cases hprop
  rename_i r t
  exact ⟨r, t, rfl, (hreturned _ r t hctl).1⟩

end Runs

end Xv6.Virtio
