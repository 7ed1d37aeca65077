import Xv6.Exec.Exec
import Xv6.Vm.Copyout

/-!
# Loading a program

`Image K s d H sz`: the directory `d` has the pages `H`, its first `sz` bytes are mapped for the
user, and nothing else below `KERNBASE`.  `segments` keeps this, whatever the program headers are.
-/

namespace Xv6.Exec

open LittleEndian Fallible Vm
open UserMemory (pgroundup)

variable {K : Link} {s s' : Phys} {d k sz : ℕ} {F H : Set ℕ} {c : List UInt8}

/-- The first `sz` bytes are mapped. -/
structure Image (K : Link) (s : Phys) (d : ℕ) (H : Set ℕ) (sz : ℕ) : Prop where
  dir : Dir s d H (kernelEntry K)
  own : Owned K s H
  lt : sz < KERNBASE
  below : ∀ k < npages sz, accessible s d k
  above : ∀ k, npages sz ≤ k → k < upages → pte s d k = 0

theorem Image.allocuvm (h : Image K s d H sz) (newsz : ℕ) :
    Total (fun r s' => ∃ H', Dir s' d H' (kernelEntry K) ∧ Steps K s s' H H' ∧
      (r ≠ 0 → Image K s' d H' r ∧ newsz ≤ r ∧ (r = sz ∨ r = newsz) ∧ Keeps s s' d ∧
      ∀ k < npages sz, pte s' d k = pte s d k)) (allocuvm K d sz newsz s) := by
  rcases lt_or_ge newsz KERNBASE with hnew | hnew
  · rcases lt_or_ge newsz sz with hlt | hle
    · rw [Vm.allocuvm, if_neg (by omega), if_pos hlt]
      exact ⟨H, h.dir, .refl h.own, fun _ => ⟨h, hlt.le, .inl rfl, .refl, fun _ _ => rfl⟩⟩
    · have hup := npages_le hnew.le
      have hmono := npages_mono hle
      refine (allocuvm_spec hnew hle h.dir h.own fun k hk hk' => h.above k hk (by omega)).mono fun r
        s' hr => ?_
      rcases hr with ⟨rfl, -, H', h'⟩ | ⟨rfl, -, -, H', hdir', hsteps'⟩
      · refine ⟨H', h'.dir, h'.steps,
          fun _ => ⟨⟨h'.dir, h'.steps.own, hnew, fun k hk => ?_, fun k hk hk' => ?_⟩, le_rfl,
            .inr rfl, h'.keeps, fun k hk => h'.out k (by omega)⟩⟩
        · rcases lt_or_ge k (npages sz) with hold | hnewk
          · rw [accessible_congr (h'.out k (by omega))]
            exact h.below k hold
          · obtain ⟨hp, hflags, -⟩ := h'.new k hnewk hk
            exact accessible_of_flags hp hflags
        · rw [h'.out k (by omega), h.above k (by omega) hk']
      · exact ⟨H', hdir', hsteps', fun hr => absurd rfl hr⟩
  · rw [Vm.allocuvm, if_pos hnew]
    exact ⟨H, h.dir, .refl h.own, fun hr => absurd rfl hr⟩

theorem Image.wrote (h : Image K s d H sz) (hw : Wrote K s s' d H) : Image K s' d H sz where
  dir := hw.dir
  own := hw.steps.own
  lt := h.lt
  below k hk := (accessible_congr (hw.pte k)).trans (h.below k hk)
  above k hk hk' := by rw [hw.pte, h.above k hk hk']

/-! ## `loaduvm` -/

theorem loadFrom_spec (c : List UInt8) {a : ℕ} (offset : ℕ) (hlt : a * PGSIZE + sz < KERNBASE) :
    ∀ (n m : ℕ) (s : Phys), Dir s d H (kernelEntry K) → Owned K s H →
      (∀ k, a ≤ k → k < npages (a * PGSIZE + sz) → accessible s d k) → npages sz - m < n →
    Total (fun _ s' => Wrote K s s' d H)
      (loadFrom K d (a * PGSIZE) c offset sz n (m * PGSIZE) s) := by
  have hK : KERNBASE = 2 ^ 31 := rfl
  intro n
  induction n with
  | zero => omega
  | succ n ih =>
    intro m s h ho hacc hn
    rw [loadFrom]
    by_cases hm : m * PGSIZE < sz
    · have hpage : (a * PGSIZE + m * PGSIZE) % 2 ^ 32 / PGSIZE = a + m := by
        simp only [PGSIZE] at *
        omega
      have hin : a + m < npages (a * PGSIZE + sz) := by
        rw [lt_npages, add_mul]
        omega
      have hlow : a + m < 2 ^ 20 := by
        simp only [npages, PGSIZE] at *
        omega
      have hnext : (m * PGSIZE + PGSIZE) % 2 ^ 32 = (m + 1) * PGSIZE := by
        simp only [PGSIZE] at *
        omega
      have hmn : m < npages sz := lt_npages.2 hm
      have ha := hacc (a + m) (Nat.le_add_right a m) hin
      have hp := present_of_accessible ha
      have htab := Dir.table_of_pte hp
      have hwritable := (kernelWritable_of_avail
        (ho.avail _ (.inl (h.mem_page (h.lt_of_accessible ha) hp)))).1
      rw [if_pos hm, bind_ok (walkpgdir_false hpage hlow s), if_pos htab]
      show Total _ ((load _ _ >>= fun e => _) s)
      rw [load_bind, entry_eq_pte htab]
      rcases readi c ((offset + m * PGSIZE) % 2 ^ 32) (min (sz - m * PGSIZE) PGSIZE) with _ | bs
      · exact .refl h ho
      · show Total _ ((if bs.isEmpty || kernelWritable K _ then memmoveTo _ _ _ _ >>=
          fun _ => _ else _ : M ℤ) s)
        rw [hwritable, Bool.or_true, if_pos rfl, memmoveTo_bind]
        have hw := Wrote.page h ho ha (blit (s.mem (pteAddr (pte s d (a + m)))) 0 bs.length fun j =>
          bs.getD j 0)
        split_ifs
        · rw [hnext]
          refine (ih (m + 1) _ hw.dir hw.steps.own (fun k hk hk' => ?_) (by omega)).mono fun _ s₂
            hw₂ => hw.trans hw₂
          exact (accessible_congr (hw.pte k)).trans (hacc k hk hk')
        · exact hw
    · rw [if_neg hm]
      exact .refl h ho

theorem Image.loaduvm {addr offset n : ℕ} (h : Image K s d H sz) (haddr : addr % PGSIZE = 0)
    (hle : addr + n ≤ sz) :
    Total (fun _ s' => Wrote K s s' d H) (loaduvm K d addr c offset n s) := by
  have hlt := h.lt
  obtain ⟨a, rfl⟩ : ∃ a, addr = a * PGSIZE :=
    ⟨addr / PGSIZE, (Nat.div_mul_cancel (Nat.dvd_of_mod_eq_zero haddr)).symm⟩
  have hfuel : npages n - 0 < fuel + 1 := by
    simp only [npages, fuel, KERNBASE, PGSIZE] at *
    omega
  have hrun := loadFrom_spec (K := K) c offset (hle.trans_lt hlt) (fuel + 1) 0 s h.dir h.own
    (fun k _ hk => h.below k (hk.trans_le (npages_mono hle))) hfuel
  rw [zero_mul] at hrun
  rw [Exec.loaduvm, if_neg (not_not_intro haddr)]
  exact hrun

/-! ## The program headers -/

def Loaded (K : Link) (s s' : Phys) (d : ℕ) (H : Set ℕ) (r : Option ℕ) : Prop :=
  ∃ H', Dir s' d H' (kernelEntry K) ∧ Steps K s s' H H' ∧ ∀ sz, r = some sz → Image K s' d H' sz

theorem Loaded.none (h : Dir s' d F (kernelEntry K)) (hsteps : Steps K s s' H F) :
    Loaded K s s' d H none :=
  ⟨F, h, hsteps, fun _ hr => nomatch hr⟩

end Xv6.Exec
