import Xv6.Vm.Stack

/-!
# `exec`

`kexec` makes a new image with a stack, and commits to it or frees it.
-/

namespace Xv6.Vm

open Finset
open Image (Building)

variable {T : Type} [DecidableEq T] [Fintype T] {L : Layout} {s s' s₀ : St T} {r sz : ℕ}
  {p : Proc} {t : T} {U : Multiset ℕ}

theorem Image.Building.commit (h : Inv L U s₀) (hp : s₀.proc t = some p)
    (hb : Building L p r sz s₀ s) :
    Tot (do
      modify fun s => s.setProc t (some { p with pagetable := r, sz := sz })
      procFreepagetable L p.pagetable p.sz : K T Unit) s fun _ s' => Inv L U s' ∧
      s'.proc = Function.update s₀.proc t (some { p with pagetable := r, sz := sz }) ∧
      s'.tbl r = s.tbl r ∧ OnlyFreed s s' := by
  obtain ⟨hok, hproc⟩ := h.ok t p hp
  have hold : p.pagetable ≠ r := by
    rintro rfl
    exact h.notMem_free hp mem_owns_pagetable hb.new
  have htbl : s.tbl p.pagetable = s₀.tbl p.pagetable := hb.tbl _ hold
  have hfree : (s₀.free : Multiset ℕ) = (s.free : Multiset ℕ) + {r} + pages (s.tbl r) := hb.bag.symm
  apply tot_modify
  have hsp : Space L p.pagetable (s.setProc t (some { p with pagetable := r, sz := sz })) := by
    apply h.space_of_le
    · show PtOk (s.tbl p.pagetable)
      rwa [htbl]
    · show (s.free : Multiset ℕ) + {p.pagetable} + pages (s.tbl p.pagetable) ≤ _
      rw [allPages_bag hp, htbl]
      unfold Vm.bag
      rw [hfree]
      apply Multiset.le_iff_exists_add.2
      refine ⟨{r} + pages (s.tbl r) + {p.trapframe} + others t s₀, ?_⟩
      abel
  apply tot_mono ((frees_procFreepagetable p.sz).tot (procFreepagetable_tot hsp hproc.sz_le (by
    show ∀ v, ((s.tbl p.pagetable).pte v).isSome → _
    rw [htbl]
    exact hproc.leaf)))
  rintro _ s1 ⟨⟨hf, hb1⟩, hof⟩
  have hself : s1.proc t = some { p with pagetable := r, sz := sz } := by
    rw [hf.proc]
    exact Function.update_self ..
  have hr1 : s1.tbl r = s.tbl r := hf.tbl r hold.symm
  refine ⟨?_, ?_, hr1, hof.free, hof.mem⟩
  rotate_left
  · rw [hf.proc]
    exact congrArg (fun f => Function.update f t _) hb.proc
  apply h.change t
  · intro t' hne
    rw [hf.proc]
    show Function.update s.proc t _ t' = _
    rw [Function.update_of_ne hne, hb.proc]
  · intro t' hne p' hp'
    rw [hf.tbl _ (h.pagetable_ne hp hp' hne)]
    apply hb.tbl
    rintro rfl
    exact h.notMem_free hp' mem_owns_pagetable hb.new
  · rw [slotOwns_some hself, slotOwns_some hp, hb1, hfree]
    unfold owns
    show (s.free : Multiset ℕ) + {p.pagetable} + pages (s.tbl p.pagetable) +
      ({p.trapframe} + {r} + pages (s1.tbl r)) = _
    rw [hr1, htbl]
    abel
  · intro p' hp'
    rw [hself] at hp'
    cases hp'
    show PtOk (s1.tbl r) ∧ ProcOk L (s1.tbl r) _
    rw [hr1]
    refine ⟨hb.ok, ?_⟩
    exact ⟨hb.proc_ok.sz_le, hb.proc_ok.trampoline, hb.proc_ok.trapframe, hb.proc_ok.leaf⟩

theorem kexec_eq (img : Image) (argv : List (List UInt8)) :
    (kexec L t p img argv : K T Bool) =
      if img.elf = false then return false
      else do
        match ← procPagetable L p.trapframe with
        | none => return false
        | some pagetable => do
          let (ok, sz) ← execLoad L pagetable img.phs 0
          if ok = false then do
            procFreepagetable L pagetable sz
            return false
          else do
            match ← execStack L p pagetable sz argv with
            | none => return false
            | some (sz1, _) => do
              modify fun s => s.setProc t (some { p with pagetable := pagetable, sz := sz1 })
              procFreepagetable L p.pagetable p.sz
              return true := by
  unfold kexec execStack
  dsimp only
  congr 1
  congr 1
  funext o
  cases o with
  | none => rfl
  | some pagetable =>
    dsimp only
    congr 1
    funext x
    obtain ⟨ok, sz⟩ := x
    dsimp only
    congr 1
    rw [Kern.bind_assoc]
    congr 1
    funext sz1
    by_cases h0 : sz1 = 0
    · rw [if_pos h0, if_pos h0, Kern.bind_assoc]
      rfl
    rw [if_neg h0, if_neg h0, Kern.bind_assoc]
    congr 1
    funext _
    rw [Kern.bind_assoc]
    congr 1
    funext o
    cases o with
    | none =>
      dsimp only
      rw [Kern.bind_assoc]
      rfl
    | some x =>
      dsimp only
      split_ifs
      · rw [Kern.bind_assoc]
        rfl
      · rw [Kern.bind_assoc]
        congr 1
        funext ok
        cases ok with
        | true => rfl
        | false =>
          rw [if_neg (by decide), if_neg (by decide), Kern.bind_assoc]
          rfl

theorem kexec_tot {img : Image} {argv : List (List UInt8)} (h : Inv L U s) (hp : s.proc t = some p)
    (himg : ∀ ph ∈ img.phs.filterMap id, ph.vaddr < 2 ^ 64 ∧ ph.memsz < 2 ^ 64)
    (hargv : ∀ arg ∈ argv, arg.length < pgsize) :
    Tot (kexec L t p img argv) s fun _ s' => Inv L U s' := by
  have hf := h.freeOk
  rw [kexec_eq]
  split_ifs with helf
  · exact tot_pure h
  apply tot_bind
  apply tot_mono (procPagetable_tot p.trapframe hf)
  rintro o s1 ⟨hnone, hsome, -⟩
  cases o with
  | none => exact tot_pure (h.restored (hnone rfl))
  | some r =>
    have hb1 := (hsome r rfl).building
    dsimp only
    apply tot_bind
    apply tot_mono (execLoad_tot hf img.phs himg hb1 fun v hv => absurd hv (by simp [npages, pgsize]))
    rintro ⟨ok, sz⟩ s2 ⟨hb2, -⟩
    dsimp only at hb2 ⊢
    split_ifs with hok
    · apply tot_bind
      apply tot_mono (hb2.free hf)
      exact fun _ _ hr => tot_pure (h.restored hr.1)
    apply tot_bind
    apply tot_mono (execStack_exact hf hb2 hargv)
    rintro o s3 ⟨hbad, hok⟩
    cases o with
    | none => exact tot_pure (h.restored (hbad rfl).1)
    | some x =>
      have hst := (hok x.1 x.2 rfl).2
      dsimp only
      rw [← Kern.bind_assoc]
      apply tot_bind
      apply tot_mono (hst.building.commit h hp)
      exact fun _ _ hi => tot_pure hi.1

end Xv6.Vm
