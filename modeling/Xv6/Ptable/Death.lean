import Xv6.Ptable.Resources
import Xv6.Ptable.LockDiscipline

/-!
# The death of a process

From `exit_process` to the `wait` of the parent.
-/

namespace Xv6.Ptable

open Table

/-- The call of `wait` that `r` records, made in the step from `T` to `T'`: it is by a process that
is the parent of a ZOMBIE child, and frees each kernel stack and the page directory of the child
once. -/
structure ReapedOnce (T T' : Table) (r : Reaped) : Prop where
  zombie : (T.proc r.child).state = .ZOMBIE
  parent : (T.proc r.child).parent = .proc r.parent
  pid : (T.proc r.child).pid = r.pid
  gone : (T'.proc r.child).state = .UNUSED
  kstacks : ∀ i n, (T.thread (r.child, i)).kstack = some n →
    T.freed.count n = 0 ∧ T'.freed.count n = 1 ∧ (T'.thread (r.child, i)).kstack = none
  pgdir : ∃ n, (T.proc r.child).pgdir = .page n ∧ T.freed.count n = 0 ∧ T'.freed.count n = 1

variable {C : Type} {s s' : Kernel C} {c : C} {T : Table}

/-- A step that calls `wait` successfully is a step of a thread of the parent. -/
theorem TableStep.reaped (ht : TableStep s c T) (hi : Inv s) (h : Owned s.table) :
    T.reaped = s.table.reaped ∨ ∃ r me, T.reaped = r :: s.table.reaped ∧
      (s.cpu c).thread = some me ∧ r.parent = me.1 ∧ ReapedOnce s.table T r := by
  cases ht with
  | calm hc => exact .inl hc.reaped
  | allocproc ok => exact .inl (allocproc_rest _ ok).2
  | fork ok hme hctl => exact .inl (by cases ok <;> rfl)
  | kthreadCreate ok hme hctl hb => exact .inl (kthreadCreate_rest _ _ ok hb).2
  | @exitProcess me st st' hme hctl => exact .inl (Wakes.exitWakes s.table me.1).reaped
  | execDone hme hctl => exact .inl rfl
  | @reap me st q n hme hctl hq hn =>
    obtain ⟨hpar, hz⟩ := zombieChild_spec hq
    have ho := h.reap hi.table (p := me.1) hz hn
    have hpg : s.table.ownsPage (.inr q) n := ⟨h.zombie q hz, hn⟩
    have hfreed : (s.table.reap me.1 q n).freed = (s.table.zombieStacks q ++ [n]) ++
      s.table.freed := rfl
    have honce : ∀ o m, s.table.ownsPage o m → m ∈ (s.table.reap me.1 q n).freed →
        s.table.freed.count m = 0 ∧ (s.table.reap me.1 q n).freed.count m = 1 := fun o m hm hf =>
      ⟨List.count_eq_zero.2 (h.pages.live o m hm), List.count_eq_one_of_mem ho.pages.nodup hf⟩
    refine .inr ⟨⟨me.1, q, (s.table.proc q).pid⟩, me, rfl, hme, rfl, hz, hpar, rfl, ?_,
      fun i m hm => ?_, n, hn, honce _ n hpg (by simp [hfreed])⟩
    · simp [Table.reap, Table.mapThread, Table.setProc, Table.free]
    · -- a slot with a kernel stack is ZOMBIE_T, and below `t_num`
      have hu : (s.table.thread (q, i)).state ≠ .UNUSED_T := fun hu => by
        rw [(h.kstack _).2 hu] at hm
        exact absurd hm (by simp)
      have hdead : (s.table.thread (q, i)).state.alive = false :=
        hi.table.dead (by rw [show (s.table.proc (q, i).1).state = .ZOMBIE from hz]; decide)
      have hzt := (ThreadState.dead_cases hdead).resolve_left hu
      have hbelow : s.table.below (q, i) := hi.table.below hu
      have hmem : m ∈ s.table.zombieStacks q := mem_zombieStacks.2 ⟨i, hbelow, hzt, hm⟩
      obtain ⟨h₁, h₂⟩ := honce (.inl (q, i)) m hm (by simp [hfreed, hmem])
      refine ⟨h₁, h₂, ?_⟩
      rw [reap_thread, if_pos ⟨rfl, hbelow, hzt⟩]

variable [DecidableEq C]

/-- Process death, along every run in bounds. -/
theorem process_death (h : (kernelSys C).ReachableVia (fun s a => sound s a) s) :
    (∀ c me st, (s.cpu c).thread = some me → (s.cpu c).ctl = .run st → st.any Frame.exiting →
      ∀ t, t.1 = me.1 → t ≠ me →
        (s.table.thread t).state = .ZOMBIE_T ∨ (s.table.thread t).state = .UNUSED_T) ∧
    (∀ t, (s.table.proc t.1).state = .ZOMBIE →
      (s.table.thread t).state = .ZOMBIE_T ∨ (s.table.thread t).state = .UNUSED_T) ∧
    ((s.table.reaped.map Reaped.pid).Nodup ∧ s.table.freed.Nodup ∧
      ∀ r ∈ s.table.reaped, ∀ p, (s.table.proc p).state ≠ .UNUSED → (s.table.proc p).pid ≠ r.pid) ∧
    (∀ a s', sound s a → s.next a.1 a.2 = some s' → s'.table.reaped = s.table.reaped ∨
      ∃ r me, s'.table.reaped = r :: s.table.reaped ∧ (s.cpu a.1).thread = some me ∧
      r.parent = me.1 ∧ ReapedOnce s.table s'.table r) ∧
    ∀ p q, (s.table.proc p).parent = .proc q → (s.table.proc q).state = .USED := by
  obtain ⟨hi, ho⟩ := Owned.of_reachable h
  refine ⟨fun c me st hme hctl hx t hp hne => ?_, fun t hz => ?_,
    ⟨ho.pids.nodup, ho.pages.nodup, ?_⟩, fun a s' hok hn => ?_,
    fun p q hpq => (ho.parent p q hpq).1⟩
  · exact (ThreadState.dead_cases (hi.frames.exiting me st (.inl ⟨c, hme, hctl⟩) hx t hp hne)).symm
  · exact (ThreadState.dead_cases (hi.table.dead (by rw [hz]; decide))).symm
  · intro r hr p hp hpid
    exact ho.pids.live p r.pid ⟨hp, hpid⟩ (List.mem_map.2 ⟨r, hr, rfl⟩)
  · exact (hi.tableStep (inBounds_of_sound hok) hn).reaped hi ho

/-- Init forks a child on CPU 0; the child exits on CPU 1, whose scheduler then looks at the rest of
the table; init waits. -/
def forkExitWait : List (Fin 2 × Act) :=
  startUser 0 ++ callOn 0 .fork (List.replicate 9 true) ++ List.replicate 7 (1, .go true) ++
    callOn 1 .exit (List.replicate 14 true) ++ List.replicate 64 (1, .go true) ++
    callOn 0 .wait (List.replicate 6 true)

/-- The pid of the child is returned and its two pages are freed. -/
theorem process_death_forkExitWait :
    ∃ s : Kernel (Fin 2), (kernelSys (Fin 2)).ReachableVia (fun s a => sound s a) s ∧
      s.table.reaped.map Reaped.pid = [2] ∧ s.table.freed.length = 2 ∧ s.table.freed.Nodup := by
  obtain ⟨s, hreach, hpids, hfreed⟩ :
    ∃ s, (kernelSys (Fin 2)).ReachableVia (fun s a => sound s a) s ∧
      s.table.reaped.map Reaped.pid = [2] ∧ s.table.freed.length = 2 :=
    Machine.Sys.exists_reachableVia forkExitWait (boot_init 0) (by decide +kernel)
  exact ⟨s, hreach, hpids, hfreed, (process_death hreach).2.2.1.2.1⟩

/-- Every thread has a kernel stack; no stack or page directory is shared or has been freed; and, as
long as the `int` `nextpid` has not overflowed, no two processes have the same pid. -/
theorem pages_pids_unshared {C : Type} [DecidableEq C] {s : Kernel C}
    (h : (kernelSys C).ReachableVia (fun s a => sound s a) s) :
    (∀ t, (s.table.thread t).state ≠ .UNUSED_T → ∃ n, s.table.ownsPage (.inl t) n) ∧
      (∀ o o' n, s.table.ownsPage o n → s.table.ownsPage o' n → o = o' ∧ n ∉ s.table.freed) ∧
      (s.table.nextpid < 2 ^ 31 → ∀ p q pid, s.table.ownsPid p pid → s.table.ownsPid q pid →
      p = q) := by
  obtain ⟨-, ho⟩ := Owned.of_reachable h
  refine ⟨fun t ht => ?_,
    fun o o' n hn hn' => ⟨ho.pages.unique o o' n hn hn', ho.pages.live o n hn⟩,
    fun _ => ho.pids.unique⟩
  exact Option.ne_none_iff_exists'.1 (mt (ho.kstack t).1 ht)

def second : ProcId := ⟨1, by decide⟩

/-- After `forkExitWait` init forks again: the second child has the slot of the first, another pid,
and a stack of its own that has not been freed. -/
theorem pages_pids_unshared_twoForks :
    ∃ s : Kernel (Fin 2), (kernelSys (Fin 2)).ReachableVia (fun s a => sound s a) s ∧
      s.table.freed.length = 2 ∧ (∃ t n, (s.table.proc t.1).pid = 3 ∧ s.table.ownsPage (.inl t) n ∧
      n ∉ s.table.freed) ∧ ∀ p q pid, s.table.ownsPid p pid → s.table.ownsPid q pid → p = q := by
  obtain ⟨s, hreach, hfreed, hpid, hnext, hstate⟩ :
      ∃ s, (kernelSys (Fin 2)).ReachableVia (fun s a => sound s a) s ∧ s.table.freed.length = 2 ∧
        (s.table.proc second).pid = 3 ∧ s.table.nextpid < 2 ^ 31 ∧
        (s.table.thread (second, (0 : Fin 16))).state ≠ .UNUSED_T :=
    Machine.Sys.exists_reachableVia (forkExitWait ++ callOn 0 .fork (List.replicate 9 true))
    (boot_init 0)
      (by decide +kernel)
  obtain ⟨hstack, hpage, hpids⟩ := pages_pids_unshared hreach
  obtain ⟨n, hn⟩ := hstack _ hstate
  exact ⟨s, hreach, hfreed, ⟨_, n, hpid, hn, (hpage _ _ n hn hn).2⟩, hpids hnext⟩

end Xv6.Ptable
