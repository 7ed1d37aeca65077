import Xv6.Pipe.Pipe

/-!
# Threads that sleep on a pipe

A reader sleeps while the pipe is empty and its write end open, a writer while the pipe is full and
its read end open.  A thread that changes the pipe so that one of these no longer holds wakes the
sleepers before it releases `p->lock`, except `pipewrite` when it finds the pipe full, and the read
end closed or its thread killed.
-/

namespace Xv6.Pipes

open State

/-- A reason to sleep on the channel. -/
def Chan.reason (p : Pipe) : Chan → Prop
  | .nread => p.empty ∧ p.writeopen
  | .nwrite => p.full ∧ p.readopen

/-- The code between `acquire` and `release`. -/
def Pc.inside : Pc → Bool
  | .user | .wAcquire .. | .rAcquire .. | .cAcquire .. => false
  | _ => true

def Pc.drowsy : Pc → Option Chan
  | .wFull .. | .wSleep .. => some .nwrite
  | .rSleep .. => some .nread
  | _ => none

/-- The thread calls `wakeup` on the channel before it releases the lock. -/
def Pc.wakes : Pc → Chan → Bool
  | .wTop _ _ true, .nread | .wFull .., .nread | .wLast, .nread | .cWake true, .nread => true
  | .rCopy .., .nwrite | .rLast, .nwrite | .cWake false, .nwrite => true
  | _, _ => false

variable {T : Type}

/-- `pipewrite` does not fail after it has stored bytes since it took the lock. -/
def orderly (s : State T) : Act T → Bool
  | .go t _ =>
    match (s.thread t).pc with
    | .wTop i n true => !(decide ((i : Int) < n) && s.pipe.full &&
      (!s.pipe.readopen || (s.thread t).killed))
    | _ => true
  | _ => true

/-- Who is inside holds the lock and is awake, and sleepers have a reason or will be woken. -/
structure Inv (s : State T) : Prop where
  lk : ∀ t, (s.thread t).pc.inside → s.lk = some t
  awake : ∀ t, (s.thread t).pc.inside → (s.thread t).chan = none
  drowsy : ∀ t c, (s.thread t).pc.drowsy = some c → c.reason s.pipe
  sleeper : ∀ t c, (s.thread t).chan = some c →
    c.reason s.pipe ∨ ∃ u, (s.thread u).pc.wakes c

variable {s s' : State T} {t : T} {pc : Pc}

theorem Pc.inside_of_wakes {c : Chan} (h : pc.wakes c) : pc.inside := by
  cases pc <;> cases c <;> simp_all [wakes, inside]

theorem Pc.inside_of_drowsy {c : Chan} (h : pc.drowsy = some c) : pc.inside := by
  cases pc <;> simp_all [drowsy, inside]

theorem Inv.reason (h : Inv s) (hfree : s.lk = none) {c : Chan} (hc : (s.thread t).chan = some c) :
    c.reason s.pipe := by
  rcases h.sleeper t c hc with hreason | ⟨u, hu⟩
  · exact hreason
  · have hlk := h.lk u (Pc.inside_of_wakes hu)
    rw [hfree] at hlk
    cases hlk

theorem Inv.fresh (h : s.Fresh) : Inv s where
  lk t ht := by simp [(h.thread t).1, Pc.inside] at ht
  awake t _ := (h.thread t).2
  drowsy t c hc := by simp [(h.thread t).1, Pc.drowsy] at hc
  sleeper t c hc := by simp [(h.thread t).2] at hc

theorem Inv.kill (h : Inv s) (victims : T → Bool) : Inv (s.kill victims) := by
  have hpc : ∀ t, ((s.kill victims).thread t).pc = (s.thread t).pc := fun t => by
    simp only [State.kill]
    split_ifs <;> rfl
  have hchan : ∀ t c, ((s.kill victims).thread t).chan = some c → (s.thread t).chan = some c := by
    intro t c hc
    simp only [State.kill] at hc
    split_ifs at hc
    exact hc
  refine ⟨fun t ht => h.lk t (hpc t ▸ ht), fun t ht => ?_, fun t c hc => h.drowsy t c (hpc t ▸ hc),
    fun t c hc => ?_⟩
  · rw [hpc] at ht
    refine Option.eq_none_iff_forall_ne_some.2 fun c hc => ?_
    have := (hchan t c hc).symm.trans (h.awake t ht)
    cases this
  · rcases h.sleeper t c (hchan t c hc) with hr | ⟨u, hu⟩
    · exact Or.inl hr
    · exact Or.inr ⟨u, by rwa [hpc]⟩

theorem Inv.inside (h : Inv s) (hin : (s.thread t).pc.inside)
    (hpc : ∀ u, u ≠ t → (s'.thread u).pc = (s.thread u).pc)
    (hchan : ∀ u, u ≠ t → ∀ c, (s'.thread u).chan = some c → (s.thread u).chan = some c)
    (hlk : (s'.thread t).pc.inside → s'.lk = some t ∧ (s'.thread t).chan = none)
    (hdrowsy : ∀ c, (s'.thread t).pc.drowsy = some c → c.reason s'.pipe)
    (hasleep : ∀ c, (s'.thread t).chan = some c → c.reason s'.pipe)
    (hsleeper : ∀ u c, u ≠ t → (s'.thread u).chan = some c →
      c.reason s.pipe ∨ (s.thread t).pc.wakes c →
      c.reason s'.pipe ∨ (s'.thread t).pc.wakes c) : Inv s' := by
  have hout : ∀ u, u ≠ t → (s.thread u).pc.inside = false := by
    intro u hu
    refine Bool.eq_false_iff.2 fun hi => hu ?_
    exact Option.some.inj ((h.lk u hi).symm.trans (h.lk t hin))
  have hout' : ∀ u, u ≠ t → (s'.thread u).pc.inside = false :=
    fun u hu => by rw [hpc u hu, hout u hu]
  refine ⟨fun u hi => ?_, fun u hi => ?_, fun u c hc => ?_, fun u c hc => ?_⟩
  · by_cases hu : u = t
    · subst hu
      exact (hlk hi).1
    · simp [hout' u hu] at hi
  · by_cases hu : u = t
    · subst hu
      exact (hlk hi).2
    · simp [hout' u hu] at hi
  · by_cases hu : u = t
    · subst hu
      exact hdrowsy c hc
    · have hi := Pc.inside_of_drowsy hc
      simp [hout' u hu] at hi
  · by_cases hu : u = t
    · subst hu
      exact Or.inl (hasleep c hc)
    · have hbefore : c.reason s.pipe ∨ (s.thread t).pc.wakes c := by
        rcases h.sleeper u c (hchan u hu c hc) with hr | ⟨v, hv⟩
        · exact Or.inl hr
        · by_cases hvt : v = t
          · exact Or.inr (hvt ▸ hv)
          · have hi := Pc.inside_of_wakes hv
            simp [hout v hvt] at hi
      rcases hsleeper u c hu hc hbefore with hr | hw
      · exact Or.inl hr
      · exact Or.inr ⟨t, hw⟩

theorem wakeup_pc (c : Chan) (u : T) : ((s.wakeup c).thread u).pc = (s.thread u).pc := by
  simp only [wakeup]
  split_ifs <;> rfl

theorem wakeup_chan (c : Chan) (u : T) :
    ((s.wakeup c).thread u).chan = if (s.thread u).chan = some c then none else
      (s.thread u).chan := by
  simp only [wakeup]
  split_ifs <;> rfl

variable [DecidableEq T]

theorem goto_thread_self (pc : Pc) : (s.goto t pc).thread t = { s.thread t with pc := pc } := by
  simp [goto]

theorem goto_thread_of_ne {u : T} (pc : Pc) (hu : u ≠ t) : (s.goto t pc).thread u = s.thread u := by
  simp [goto, hu]

attribute [local simp] goto_thread_self

theorem Inv.outside (h : Inv s) (hout : (s.thread t).pc.inside = false) {lk : Option T}
    (hdrowsy : pc.drowsy = none) (hin : pc.inside → lk = some t ∧ (s.thread t).chan = none)
    (hlk : ∀ u, u ≠ t → (s.thread u).pc.inside → lk = some u) :
    Inv { s.goto t pc with lk := lk } := by
  refine ⟨fun u hi => ?_, fun u hi => ?_, fun u c hc => ?_, fun u c hc => ?_⟩ <;> by_cases hu :
    u = t
  · subst hu
    simp only [goto_thread_self] at hi
    exact (hin hi).1
  · simp only [goto_thread_of_ne pc hu] at hi
    exact hlk u hu hi
  · subst hu
    simp only [goto_thread_self] at hi ⊢
    exact (hin hi).2
  · simp only [goto_thread_of_ne pc hu] at hi ⊢
    exact h.awake u hi
  · subst hu
    simp [hdrowsy] at hc
  · simp only [goto_thread_of_ne pc hu] at hc
    exact h.drowsy u c hc
  all_goals
    have hc' : (s.thread u).chan = some c := by
      first
        | subst hu; simpa only [goto_thread_self] using hc
        | simpa only [goto_thread_of_ne pc hu] using hc
    rcases h.sleeper u c hc' with hr | ⟨v, hv⟩
    · exact Or.inl hr
    · refine Or.inr ⟨v, ?_⟩
      have hvt : v ≠ t := by
        rintro rfl
        simp [Pc.inside_of_wakes hv] at hout
      simpa only [goto_thread_of_ne pc hvt] using hv

theorem Inv.call (h : Inv s) (hpc : pc.inside = false) (hs : s.call t pc = some s') : Inv s' := by
  unfold State.call at hs
  split_ifs at hs with huser
  cases hs
  refine h.outside (by simp [huser, Pc.inside]) ?_ (by simp [hpc]) fun u _ hi => h.lk u hi
  cases hd : pc.drowsy with
  | none => rfl
  | some c => simp [Pc.inside_of_drowsy hd] at hpc

theorem Inv.acquire (h : Inv s) (hout : (s.thread t).pc.inside = false)
    (hawake : (s.thread t).chan = none) (hdrowsy : pc.drowsy = none)
    (hs : s.acquire t pc = some s') : Inv s' := by
  unfold State.acquire at hs
  split_ifs at hs with hfree
  cases hs
  refine h.outside hout hdrowsy (fun _ => ⟨rfl, hawake⟩) fun u _ hi => ?_
  have hlk := h.lk u hi
  rw [hfree.1] at hlk
  cases hlk

theorem Inv.goto (h : Inv s) (hin : (s.thread t).pc.inside) {lk : Option T} {freed : Bool}
    (hlk : pc.inside → lk = some t) (hdrowsy : ∀ c, pc.drowsy = some c → c.reason s.pipe)
    (hwakes : ∀ c, (s.thread t).pc.wakes c → pc.wakes c) :
    Inv { s.goto t pc with lk := lk, freed := freed } := by
  have hawake := h.awake t hin
  refine h.inside hin (fun u hu => ?_) (fun u hu c hc => ?_) (fun hi => ?_) (fun c hc => ?_)
    (fun c hc => ?_)
    fun u c hu hc hbefore => ?_
  · simp only [goto_thread_of_ne pc hu]
  · simpa only [goto_thread_of_ne pc hu] using hc
  · simp only [goto_thread_self] at hi ⊢
    exact ⟨hlk hi, hawake⟩
  · simp only [goto_thread_self] at hc
    exact hdrowsy c hc
  · simp [hawake] at hc
  · simp only [goto_thread_self]
    exact hbefore.imp_right (hwakes c)

theorem Inv.wakeup (h : Inv s) (hin : (s.thread t).pc.inside) {c : Chan}
    (hdrowsy : ∀ c, pc.drowsy = some c → c.reason s.pipe)
    (hwakes : ∀ d, (s.thread t).pc.wakes d → d = c) : Inv ((s.wakeup c).goto t pc) := by
  have hawake := h.awake t hin
  refine h.inside hin (fun u hu => ?_) (fun u hu d hd => ?_) (fun hi => ?_) (fun d hd => ?_)
    (fun d hd => ?_)
    fun u d hu hd hbefore => ?_
  · rw [goto_thread_of_ne pc hu, wakeup_pc]
  · rw [goto_thread_of_ne pc hu, wakeup_chan] at hd
    split_ifs at hd
    exact hd
  · rw [goto_thread_self]
    refine ⟨h.lk t hin, ?_⟩
    show ((s.wakeup c).thread t).chan = none
    rw [wakeup_chan, hawake, if_neg (by simp)]
  · rw [goto_thread_self] at hd
    exact hdrowsy d hd
  · rw [goto_thread_self] at hd
    have hd' : ((s.wakeup c).thread t).chan = some d := hd
    rw [wakeup_chan, hawake, if_neg (by simp)] at hd'
    cases hd'
  · rw [goto_thread_of_ne pc hu, wakeup_chan] at hd
    split_ifs at hd with hcd
    refine Or.inl (hbefore.resolve_right fun hw => hcd ?_)
    rw [hd, hwakes d hw]

theorem Inv.setPipe (h : Inv s) (hin : (s.thread t).pc.inside) {p : Pipe}
    {stored delivered : List UInt8} (hdrowsy : pc.drowsy = none)
    (hsleeper : ∀ c, c.reason s.pipe ∨ (s.thread t).pc.wakes c → c.reason p ∨ pc.wakes c) :
    Inv { s.goto t pc with pipe := p, stored := stored, delivered := delivered } := by
  have hawake := h.awake t hin
  refine h.inside hin (fun u hu => ?_) (fun u hu c hc => ?_) (fun hi => ?_) (fun c hc => ?_)
    (fun c hc => ?_)
    fun u c hu hc hbefore => ?_
  · simp only [goto_thread_of_ne pc hu]
  · simpa only [goto_thread_of_ne pc hu] using hc
  · simp only [goto_thread_self]
    exact ⟨h.lk t hin, hawake⟩
  · simp [hdrowsy] at hc
  · simp [hawake] at hc
  · simp only [goto_thread_self]
    exact hsleeper c hbefore

theorem Inv.sleep (h : Inv s) (hin : (s.thread t).pc.inside) {c : Chan}
    (hdrowsy : (s.thread t).pc.drowsy = some c) (hwakes : ∀ d, (s.thread t).pc.wakes d = false)
    (hpc : pc.inside = false) : Inv (s.sleep t c pc) := by
  have hself : (s.sleep t c pc).thread t = ⟨pc, some c, (s.thread t).killed⟩ := by
    simp [State.sleep]
  have hother : ∀ u, u ≠ t → (s.sleep t c pc).thread u = s.thread u := fun u hu => by
    simp [State.sleep, hu]
  refine h.inside hin (fun u hu => ?_) (fun u hu d hd => ?_) (fun hi => ?_) (fun d hd => ?_)
    (fun d hd => ?_)
    fun u d hu hd hbefore => ?_
  · rw [hother u hu]
  · rwa [hother u hu] at hd
  · rw [hself] at hi
    simp [hpc] at hi
  · rw [hself] at hd
    simp [Pc.inside_of_drowsy hd] at hpc
  · rw [hself] at hd
    obtain rfl : c = d := Option.some.inj hd
    exact h.drowsy t c hdrowsy
  · refine Or.inl (hbefore.resolve_right fun hw => ?_)
    simp [hwakes d] at hw

attribute [local simp] Pc.wakes

theorem Inv.go (h : Inv s) {x : UInt8} (hawake : (s.thread t).chan = none)
    (hok : orderly s (.go t x)) (hs : s.go t x = some s') : Inv s' := by
  unfold State.go at hs
  cases hpc : (s.thread t).pc <;> simp only [hpc] at hs
  case user => cases hs
  case wAcquire | rAcquire | cAcquire =>
    exact h.acquire (by simp [hpc, Pc.inside]) hawake (by simp [Pc.drowsy]) hs
  all_goals have hin : (s.thread t).pc.inside := by simp [hpc, Pc.inside]
  case wTop i n stored =>
    split_ifs at hs with hi hfull hfail <;> cases hs
    · -- the exception: no bytes have been stored, so nobody is owed a wakeup
      have hstored : stored = false := by
        refine Bool.eq_false_iff.2 fun hst => ?_
        subst hst
        rcases hfail with hr | hk
        · simp [orderly, hpc, hi, hfull, hr] at hok
        · simp [orderly, hpc, hi, hfull, hk] at hok
      subst hstored
      exact h.goto hin (fun _ => h.lk t hin) (by simp [Pc.drowsy]) (by simp [hpc])
    · push Not at hfail
      refine h.goto hin (fun _ => h.lk t hin) (fun c hc => ?_) fun c hc => ?_
      · obtain rfl : Chan.nwrite = c := by simpa [Pc.drowsy] using hc
        exact ⟨hfull, by simpa using hfail.1⟩
      · cases c <;> cases stored <;> simp_all
    · refine h.setPipe hin (by simp [Pc.drowsy]) fun c hc => ?_
      cases c with
      | nread => exact Or.inr (by simp)
      | nwrite =>
        rcases hc with hr | hw
        · exact absurd hr.1 hfull
        · simp [hpc] at hw
    · refine h.goto hin (fun _ => h.lk t hin) (by simp [Pc.drowsy]) fun c hc => ?_
      cases c <;> cases stored <;> simp_all
  case wFull i n =>
    cases hs
    refine h.wakeup hin (fun c hc => ?_) fun c hc => ?_
    · exact h.drowsy t c (by simpa [hpc, Pc.drowsy] using hc)
    · cases c <;> simp_all
  case wSleep i n =>
    cases hs
    exact h.sleep hin (by simp [hpc, Pc.drowsy]) (by simp [hpc]) (by simp [Pc.inside])
  case rSleep n =>
    cases hs
    exact h.sleep hin (by simp [hpc, Pc.drowsy]) (by simp [hpc]) (by simp [Pc.inside])
  case wLast | rLast =>
    cases hs
    refine h.wakeup hin (by simp [Pc.drowsy]) fun c hc => ?_
    cases c <;> simp_all
  case rTest n =>
    split_ifs at hs with hempty hkilled <;> cases hs
    · exact h.goto hin (fun _ => h.lk t hin) (by simp [Pc.drowsy]) (by simp [hpc])
    · refine h.goto hin (fun _ => h.lk t hin) (fun c hc => ?_) (by simp [hpc])
      obtain rfl : Chan.nread = c := by simpa [Pc.drowsy] using hc
      exact hempty
    · exact h.goto hin (fun _ => h.lk t hin) (by simp [Pc.drowsy]) (by simp [hpc])
  case rCopy i n =>
    split_ifs at hs with hc <;> cases hs
    · refine h.setPipe hin (by simp [Pc.drowsy]) fun c hreason => ?_
      cases c with
      | nread =>
        rcases hreason with hr | hw
        · exact absurd hr.1 (by simp [hc.2])
        · simp [hpc] at hw
      | nwrite => exact Or.inr (by simp)
    · refine h.goto hin (fun _ => h.lk t hin) (by simp [Pc.drowsy]) fun c hw => ?_
      cases c <;> simp_all
  case cClose w =>
    cases hs
    refine h.setPipe hin (by simp [Pc.drowsy]) fun c hreason => ?_
    have hreason := hreason.resolve_right (by simp [hpc])
    cases w <;> cases c
    · exact Or.inl hreason
    · exact Or.inr (by simp)
    · exact Or.inr (by simp)
    · exact Or.inl hreason
  case cWake w =>
    cases hs
    refine h.wakeup hin (by simp [Pc.drowsy]) fun c hc => ?_
    cases c <;> cases w <;> simp_all
  case cLast =>
    cases hs
    exact h.goto hin (by simp [Pc.inside]) (by simp [Pc.drowsy]) (by simp [hpc])
  case release =>
    cases hs
    exact h.goto hin (by simp [Pc.inside]) (by simp [Pc.drowsy]) (by simp [hpc])

theorem Inv.next (h : Inv s) {a : Act T} (hok : orderly s a) (hs : s.next a = some s') :
    Inv s' := by
  cases a with
  | write t n | read t n | close t w => exact h.call rfl hs
  | go t x =>
    simp only [State.next] at hs
    split_ifs at hs with hawake
    exact h.go hawake hok hs
  | kill victims =>
    cases hs
    exact h.kill victims

/-- While `p->lock` is free, a thread sleeps on `&p->nread` only if the pipe is empty and open for
writing, and on `&p->nwrite` only if it is full and open for reading. -/
theorem no_sleeper_stranded (h : (sys T).ReachableVia (fun s a => orderly s a) s)
    (hfree : s.lk = none) (t : T) :
    ((s.thread t).chan = some .nread → s.pipe.nread = s.pipe.nwrite ∧ s.pipe.writeopen) ∧
      ((s.thread t).chan = some .nwrite →
        s.pipe.nwrite = s.pipe.nread + Fin.ofNat (2 ^ 32) PIPESIZE ∧ s.pipe.readopen) := by
  have hinv : Inv s := by
    refine Machine.Sys.ReachableVia.invariant (I := Inv) ?_ ?_ h
    · intro s hs
      exact .fresh hs
    · intro s a s' hI hok hs
      exact hI.next hok hs
  refine ⟨fun hc => ?_, fun hc => ?_⟩
  · obtain ⟨hempty, hopen⟩ := hinv.reason hfree hc
    exact ⟨of_decide_eq_true hempty, hopen⟩
  · obtain ⟨hfull, hopen⟩ := hinv.reason hfree hc
    exact ⟨of_decide_eq_true hfull, hopen⟩

def readEmpty : List (Act Bool) := .read false 1 :: List.replicate 3 (.go false 0)

theorem no_sleeper_stranded_readEmpty : ∃ s, (sys Bool).ReachableVia (fun s a => orderly s a) s ∧
      (s.thread false).chan = some .nread ∧ s.pipe.nread = s.pipe.nwrite ∧ s.pipe.writeopen := by
  obtain ⟨s, hreach, hchan, hfree⟩ : ∃ s, (sys Bool).ReachableVia (fun s a => orderly s a) s ∧
      (s.thread false).chan = some .nread ∧ s.lk = none :=
    Machine.Sys.exists_reachableVia readEmpty newPipe_fresh (by decide +kernel)
  exact ⟨s, hreach, hchan, (no_sleeper_stranded hreach hfree false).1 hchan⟩

/-- The reader sleeps, and a writer of 513 bytes is killed before it finds the pipe full. -/
def killWriter : List (Act Bool) :=
  readEmpty ++ .write true 513 :: List.replicate 513 (.go true 0) ++
    [.kill fun t => t, .go true 0, .go true 0]

theorem reader_stranded :
    ∃ s, (sys Bool).Reachable s ∧ s.lk = none ∧ (s.thread false).chan = some .nread ∧
      s.pipe.nread ≠ s.pipe.nwrite ∧ (s.thread true).pc = .user :=
  Machine.Sys.exists_reachable killWriter newPipe_fresh (by decide +kernel)

end Xv6.Pipes
