import Xv6.Vm.Copy
import Xv6.Vm.Exec

/-!
# Runs of all processes

Every step whose `sbrk` stays below the trapframe returns and keeps the invariant, so the invariant
holds in every run of such steps. `sys_sbrk` itself does not check that bound.
-/

namespace Xv6.Vm

open Finset

variable {T : Type} [DecidableEq T] [Fintype T] {L : Layout} {s s' : St T} {p : Proc} {t : T}
  {U : Multiset ℕ}

/-! ## Steps -/

theorem tot_withProc {α : Type} {f : Proc → K T α} {Q : St T → Prop} (h : Q s)
    (hf : ∀ p, s.proc t = some p → Tot (f p) s fun _ s' => Q s') :
    Tot (withProc t f) s fun _ s' => Q s' := by
  unfold withProc
  apply tot_get
  cases hp : s.proc t with
  | none => exact tot_pure h
  | some p =>
    apply tot_bind
    apply tot_mono (hf p hp)
    exact fun _ _ hq => tot_pure hq

theorem step_tot (h : Inv L U s) (c : Call T) (ha : ArgsOk c) (hb : Below c s) :
    Tot (step L c) s fun _ s' => Inv L U s' := by
  cases c with
  | userinit t =>
    apply tot_get
    cases hp : s.proc t with
    | some p => exact tot_pure h
    | none =>
      apply tot_bind
      apply tot_mono (allocproc_tot h hp)
      exact fun _ _ hi => tot_pure hi.1
  | sbrk t n mode =>
    apply tot_withProc h
    exact fun p hp => sysSbrk_tot h hp fun hn => hb hn p hp
  | fault t va =>
    apply tot_withProc h
    intro p hp
    apply tot_mono (vmfault_sound (h.addrSpace hp))
    exact fun _ _ hs => h.sound hp hs
  | copyin t va len =>
    apply tot_withProc h
    intro p hp
    apply tot_mono (copyinLoop_exact len le_rfl (h.addrSpace hp))
    exact fun _ _ hs => h.sound hp hs.sound
  | copyout t va src =>
    apply tot_withProc h
    intro p hp
    apply tot_mono (copyoutLoop_exact src.length le_rfl (h.addrSpace hp))
    exact fun _ _ hs => h.sound hp hs.sound
  | copyinstr t va max =>
    apply tot_withProc h
    intro p hp
    apply tot_mono (copyinstrLoop_exact (h.addrSpace hp) max le_rfl)
    rintro _ _ ⟨rfl, -⟩
    exact h
  | fork t t' =>
    apply tot_get
    cases hp' : s.proc t' with
    | some p => exact tot_pure h
    | none =>
      apply tot_withProc h
      exact fun p hp => kfork_tot h hp hp'
  | exec t img argv =>
    apply tot_withProc h
    exact fun p hp => kexec_tot h hp ha.1 ha.2
  | free t =>
    apply tot_withProc h
    exact fun p hp => freeproc_tot h hp

theorem inv_kinit {l : List ℕ} (hl : l.Nodup) (hpage : ∀ pa ∈ l, PageOk L pa) :
    Inv L l (kinit l : St T) := by
  have hall : allPages (kinit l : St T) = (l : Multiset ℕ) := by
    have : ∑ t, slotOwns (kinit l : St T) t = 0 := sum_eq_zero fun t _ => slotOwns_none rfl
    unfold allPages
    rw [this, add_zero]
    rfl
  constructor
  · exact hall
  · intro t p hp
    cases hp
  · rw [hall]
    exact hpage
  · rw [hall]
    exact Multiset.nodup_iff_count_le_one.1 (Multiset.coe_nodup.2 hl)

theorem reach_inv {l : List ℕ} (hl : l.Nodup) (hpage : ∀ pa ∈ l, PageOk L pa)
    (h : Reach L Below (kinit l) s) : Inv L l s := by
  induction h with
  | refl => exact inv_kinit hl hpage
  | step _ ha hb he ih =>
    obtain ⟨u, s', he', hi⟩ := step_tot ih _ ha hb
    rw [he] at he'
    cases he'
    exact hi

/-! ## The address spaces in a run -/

theorem ProcOk.mapped {tbl : Tbl} (hok : PtOk tbl) (h : ProcOk L tbl p) {v : ℕ}
    (hv : (tbl.pte v).isSome) :
    v * pgsize < pgroundup p.sz ∨ v * pgsize = trapframeVa ∨ v * pgsize = trampolineVa := by
  have hlt := hok.pte_lt hv
  rw [pgroundup_eq h.sz_le, trapframeVa_eq, trampolineVa_eq]
  rcases h.leaf v hv with hl | hl
  · exact .inl (Nat.mul_lt_mul_of_pos_right hl (by unfold pgsize; norm_num))
  · right
    have : v = userPages ∨ v = userPages + 1 := by
      unfold userPages at *
      omega
    rcases this with rfl | rfl
    · exact .inl rfl
    · exact .inr rfl

/-- In every run whose growing `sbrk` calls stay below the trapframe, the sizes and the mappings are
bounded, the trapframe and the trampoline stay mapped and are never freed, and no such step panics. -/
theorem address_spaces_bounded {l : List ℕ} (hl : l.Nodup) (hpage : ∀ pa ∈ l, PageOk L pa)
    (h : Reach L Below (kinit l) s) :
    (∀ t p, s.proc t = some p →
      p.sz ≤ trapframeVa ∧
      (∀ v, ((s.tbl p.pagetable).pte v).isSome →
        v * pgsize < pgroundup p.sz ∨ v * pgsize = trapframeVa ∨ v * pgsize = trampolineVa) ∧
      (s.tbl p.pagetable).pte (trapframeVa / pgsize) =
        some ⟨{ r := true, w := true }, p.trapframe⟩ ∧
      (s.tbl p.pagetable).pte (trampolineVa / pgsize) =
        some ⟨{ r := true, x := true }, L.trampoline⟩ ∧
      p.trapframe ∉ s.free ∧ L.trampoline ∉ s.free) ∧
    ∀ c, ArgsOk c → Below c s → ∃ s', step L c s = .ok ((), s') := by
  have hi := reach_inv hl hpage h
  constructor
  · intro t p hp
    obtain ⟨hok, hproc⟩ := hi.ok t p hp
    refine ⟨hproc.sz_le, fun v hv => hproc.mapped hok hv, ?_, ?_, ?_, ?_⟩
    · rw [trapframeVa_eq, div_pgsize]
      exact hproc.trapframe
    · rw [trampolineVa_eq, div_pgsize]
      exact hproc.trampoline
    · exact hi.notMem_free hp mem_owns_trapframe
    · intro hm
      have := (hi.freeOk.page _ hm).2.1
      have := L.trampoline_lt
      omega
  · intro c ha hb
    obtain ⟨_, s', he, -⟩ := step_tot hi c ha hb
    exact ⟨s', he⟩

/-- A kernel of 34 pages, with the trampoline in its text. -/
def someLayout : Layout where
  kend := kernBase + 0x22000
  trampoline := kernBase + 0x6000
  base_le := by decide
  trampoline_lt := by decide

/-- Eight pages of memory. -/
def somePages : List ℕ := (List.range 8).map fun i => phystop - (i + 1) * pgsize

/-- The first process exists, with size 0, and four pages are left. -/
theorem exists_userinit : ∃ (s : St (Fin 64)) (p : Proc),
    step someLayout (.userinit 0) (kinit somePages) = .ok ((), s) ∧ s.proc 0 = some p ∧ p.sz = 0 ∧
    s.free.length = 4 ∧ (s.tbl p.pagetable).pte 0 = none :=
  ⟨_, _, rfl, rfl, rfl, rfl, rfl⟩

theorem sbrk_lazy (hp : s.proc t = some p) {n : ℕ} (hn : p.sz + n < 2 ^ 64) :
    step L (.sbrk t n 2) s = .ok ((), s.setProc t (some { p with sz := p.sz + n })) := by
  have hu : u64 (p.sz + (n : ℤ)) = p.sz + n := u64_of_lt hn
  have heager : ¬((2 : ℤ) = sbrkEager ∨ (n : ℤ) < 0) := by
    unfold sbrkEager
    omega
  show withProc t _ s = _
  unfold withProc
  rw [bind_ok rfl]
  simp only [hp]
  unfold sysSbrk
  rw [if_neg heager, hu, if_neg (by omega)]
  rfl

theorem exists_sbrk (n : ℕ) (hn : n < 2 ^ 31) : ∃ (s : St (Fin 64)) (p : Proc),
    Reach someLayout Below (kinit somePages) s ∧ s.proc 0 = some p ∧ p.sz = n ∧
    s.free.length = 4 ∧ (s.tbl p.pagetable).pte 0 = none := by
  obtain ⟨s, p, he, hp, hsz, hfree, hpte⟩ := exists_userinit
  have hstep := sbrk_lazy (L := someLayout) (n := n) hp (by omega)
  refine ⟨_, _, .step (.step (c := .userinit 0) .refl trivial trivial he) ?_ ?_ hstep,
    setProc_proc .., ?_, hfree, hpte⟩
  · show -2 ^ 31 ≤ (n : ℤ) ∧ (n : ℤ) < 2 ^ 31
    omega
  · intro _ p' hp'
    rw [hp] at hp'
    cases hp'
    rw [hsz]
    unfold trapframeVa trampolineVa maxva pgsize
    omega
  · show p.sz + n = n
    omega

theorem address_spaces_bounded_lazy : ∃ (s : St (Fin 64)) (p : Proc),
    Reach someLayout Below (kinit somePages) s ∧ s.proc 0 = some p ∧ p.sz = 10000 ∧
    p.sz ≤ trapframeVa ∧ ∃ s', step someLayout (.fault 0 5000) s = .ok ((), s') := by
  obtain ⟨s, p, hr, hp, hsz, -, -⟩ := exists_sbrk 10000 (by norm_num)
  have hb := address_spaces_bounded (by decide) (by decide) hr
  exact ⟨s, p, hr, hp, hsz, (hb.1 0 p hp).1,
    hb.2 (.fault 0 5000) (by show 5000 < 2 ^ 64; norm_num) trivial⟩

/-! ## The pages in a run -/

theorem Inv.owner_unique (h : Inv L U s) {t' : T} {pa : ℕ} (ht : pa ∈ slotOwns s t)
    (ht' : pa ∈ slotOwns s t') : t' = t := by
  by_contra hne
  have hn := h.nodup
  rw [allPages_eq t] at hn
  have hmem : pa ∈ others t s := Multiset.mem_sum.2 ⟨t', mem_erase.2 ⟨hne, mem_univ t'⟩, ht'⟩
  apply Multiset.disjoint_left.1 (Multiset.disjoint_of_nodup_add hn) _ hmem
  exact Multiset.mem_add.2 (.inr ht)

/-- **No page is lost or shared.** In every such run, each page that `kinit` freed is on the free list
or is a page of exactly one process. -/
theorem pages_conserved {l : List ℕ} (hl : l.Nodup) (hpage : ∀ pa ∈ l, PageOk L pa)
    (h : Reach L Below (kinit l) s) :
    (s.free : Multiset ℕ) + ∑ t, slotOwns s t = l ∧
    ∀ pa ∈ l, pa ∈ s.free ∧ (∀ t, pa ∉ slotOwns s t) ∨
      pa ∉ s.free ∧ ∃! t, pa ∈ slotOwns s t := by
  have hi := reach_inv hl hpage h
  have hsum : (s.free : Multiset ℕ) + ∑ t, slotOwns s t = l := hi.all
  refine ⟨hsum, fun pa hpa => ?_⟩
  rw [← Multiset.mem_coe, ← hsum, Multiset.mem_add] at hpa
  by_cases hf : pa ∈ s.free
  · refine .inl ⟨hf, fun t ht => ?_⟩
    apply Multiset.disjoint_left.1 (Multiset.disjoint_of_nodup_add hi.nodup) (Multiset.mem_coe.2 hf)
    exact Multiset.mem_sum.2 ⟨t, mem_univ t, ht⟩
  · obtain ⟨t, -, ht⟩ := Multiset.mem_sum.1 (hpa.resolve_left hf)
    exact .inr ⟨hf, t, ht, fun t' ht' => hi.owner_unique ht ht'⟩

theorem pages_conserved_lazy : ∃ s : St (Fin 64), Reach someLayout Below (kinit somePages) s ∧
    s.free.length = 4 ∧ (s.free : Multiset ℕ) + ∑ t, slotOwns s t = somePages := by
  obtain ⟨s, p, hr, -, -, hfree, -⟩ := exists_sbrk 10000 (by norm_num)
  exact ⟨s, hr, hfree, (pages_conserved (by decide) (by decide) hr).1⟩

/-! ## Without the bound -/

theorem fault_panics (hp : s.proc t = some p) (hsz : maxva < p.sz) :
    step L (.fault t maxva) s = .error "walk" := by
  show withProc t _ s = _
  unfold withProc
  rw [bind_ok rfl]
  simp only [hp]
  unfold vmfault
  rw [if_neg (by omega)]
  rfl

theorem exists_lazy (k : ℕ) (hk : k ≤ 2 ^ 16) : ∃ (s : St (Fin 64)) (p : Proc),
    Reach someLayout (fun _ _ => True) (kinit somePages) s ∧ s.proc 0 = some p ∧
    p.sz = k * (2 ^ 31 - 1) := by
  induction k with
  | zero =>
    obtain ⟨s, p, he, hp, hsz, -, -⟩ := exists_userinit
    exact ⟨s, p, .step (c := .userinit 0) .refl trivial trivial he, hp, by omega⟩
  | succ k ih =>
    obtain ⟨s, p, hr, hp, hsz⟩ := ih (by omega)
    have hstep := sbrk_lazy (L := someLayout) (n := 2 ^ 31 - 1) hp (by omega)
    refine ⟨_, _, .step hr ?_ trivial hstep, setProc_proc .., ?_⟩
    · show -2 ^ 31 ≤ ((2 ^ 31 - 1 : ℕ) : ℤ) ∧ ((2 ^ 31 - 1 : ℕ) : ℤ) < 2 ^ 31
      norm_num
    · show p.sz + (2 ^ 31 - 1) = _
      rw [hsz]
      ring

/-- After 129 lazy calls of `sbrk(0x7fffffff)` the size is past the trapframe, and a page fault at
`MAXVA` stops the kernel. -/
theorem sbrk_past_trapframe : ∃ (s : St (Fin 64)) (p : Proc),
    Reach someLayout (fun _ _ => True) (kinit somePages) s ∧ s.proc 0 = some p ∧
    trapframeVa < p.sz ∧ step someLayout (.fault 0 maxva) s = .error "walk" := by
  obtain ⟨s, p, hr, hp, hsz⟩ := exists_lazy 129 (by norm_num)
  have hmax : maxva < p.sz := by
    rw [hsz]
    decide
  have htf : trapframeVa < maxva := by decide
  exact ⟨s, p, hr, hp, htf.trans hmax, fault_panics hp hmax⟩

end Xv6.Vm
