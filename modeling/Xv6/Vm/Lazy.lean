import Xv6.Vm.Runs

/-!
# User memory with lazy allocation

A page below the size of a process that is not mapped yet counts as a zeroed page. `copyin` and
`copyout` read and write that memory, so a page that was not allocated yet makes no difference to
them. `copyinstr` does not fault pages in and fails there.
-/

namespace Xv6.Vm

open Function Finset

variable {T : Type} [DecidableEq T] {L : Layout} {s s' sE : St T} {v va pa : ℕ} {e : Pte} {p : Proc}

/-! ## `copyin` and `copyout` -/

theorem get_eq_byte {m : UMem} {a : ℕ} (h : m.get a ≠ none) : m.get a = some (m.byte a) := by
  unfold UMem.get at h ⊢
  cases hq : m.perm a with
  | none =>
    rw [hq] at h
    exact absurd rfl h
  | some q =>
    rw [hq] at h
    rw [Option.bind_some] at h ⊢
    by_cases hu : q.u = true
    · rw [if_pos hu]
    · rw [if_neg hu] at h
      exact absurd rfl h

theorem copyin_umem (h : AddrSpace L p s) (va len : ℕ)
    (hfree : 3 * lazyPages s p va len ≤ s.free.length) :
    Tot (copyin L p p.pagetable va len) s fun x s' =>
      x = (umem s p).read va len ∧ umem s' p = umem s p := by
  apply tot_mono (copyinLoop_exact len le_rfl h)
  rintro x s' ⟨-, ⟨k, hk, hxk, hbytes⟩, -, hum, -⟩
  have hread := Cells.read_of_stop hk.le (fun i hi => get_eq_byte (hk.before i hi)) fun hlt =>
    (hk.stop hlt).elim not_not.1 fun hlack => absurd hlack (by omega)
  refine ⟨?_, hum⟩
  unfold UMem.read
  rw [hread]
  rw [List.nil_append] at hbytes
  exact Prod.ext (Bool.eq_iff_iff.2 (hxk.trans decide_eq_true_iff.symm)) hbytes

theorem copyout_umem (h : AddrSpace L p s) (va : ℕ) (src : List UInt8)
    (hfree : 3 * lazyPages s p va src.length ≤ s.free.length) :
    Tot (copyout L p p.pagetable va src) s fun ok s' =>
      (ok, umem s' p) = (umem s p).write va src := by
  apply tot_mono (copyoutLoop_exact src.length le_rfl h)
  rintro ok s' ⟨-, ⟨k, hk, hxk, hbytes⟩, -, -⟩
  have hwrite := Cells.write_of_stop (m := (umem s p).byte) hk.le hk.before fun hlt =>
    (hk.stop hlt).elim Bool.eq_false_iff.2 fun hlack => absurd hlack (by omega)
  unfold UMem.write
  rw [hwrite]
  exact Prod.ext (Bool.eq_iff_iff.2 (hxk.trans decide_eq_true_iff.symm)) hbytes

/-! ## `copyinstr` -/

/-- The string at `va` runs into a page that is not mapped yet. -/
def ReachesLazy (s : St T) (p : Proc) (va max : ℕ) : Prop :=
  ∃ i < max, (va + i) / pgsize < npages p.sz ∧ (s.tbl p.pagetable).pte ((va + i) / pgsize) = none ∧
    ∀ j < i, ∃ c, (umem s p).get (va + j) = some c ∧ c ≠ 0

theorem reachesLazy_succ {max : ℕ} : ReachesLazy s p va (max + 1) ↔
    (va / pgsize < npages p.sz ∧ (s.tbl p.pagetable).pte (va / pgsize) = none) ∨
      (∃ c, (umem s p).get va = some c ∧ c ≠ 0) ∧ ReachesLazy s p (va + 1) max := by
  have hadd : ∀ i, va + 1 + i = va + (i + 1) := fun i => by omega
  constructor
  · rintro ⟨i, hi, hlt, hnone, hall⟩
    cases i with
    | zero => exact .inl ⟨hlt, hnone⟩
    | succ i =>
      refine .inr ⟨hall 0 (by omega), i, by omega, by rwa [hadd], by rwa [hadd], fun j hj => ?_⟩
      rw [hadd]
      exact hall (j + 1) (by omega)
  · rintro (⟨hlt, hnone⟩ | ⟨hc, i, hi, hlt, hnone, hall⟩)
    · exact ⟨0, by omega, hlt, hnone, nofun⟩
    · rw [hadd] at hlt hnone
      refine ⟨i + 1, by omega, hlt, hnone, fun j hj => ?_⟩
      cases j with
      | zero => exact hc
      | succ j =>
        rw [← hadd]
        exact hall j (by omega)

/-- `copyinstr` sees user memory, except for the pages that are not mapped yet. -/
theorem userByte_eq_get (h : AddrSpace L p s)
    (hlazy : ¬(va / pgsize < npages p.sz ∧ (s.tbl p.pagetable).pte (va / pgsize) = none)) :
    userByte s p.pagetable va = (umem s p).get va := by
  cases he : (s.tbl p.pagetable).pte (va / pgsize) with
  | none =>
    rw [get_of_ge (not_lt.1 fun hv => hlazy ⟨hv, he⟩)]
    unfold userByte
    rw [he]
    rfl
  | some e =>
    cases hu : e.perm.u with
    | false =>
      rw [get_of_not_user he (by rw [hu]; simp) rfl]
      unfold userByte
      rw [he]
      exact if_neg (by rw [hu]; simp)
    | true =>
      have h0 : userPa (s.tbl p.pagetable) (va / pgsize) ≠ 0 := fun h0 => by
        rw [h.not_user h0 he] at hu
        cases hu
      rw [userByte_of_pte he hu, get_of_pte (h.of_userPa h0).1 he hu rfl]

/-- `copyinstr` reads the string in user memory, except where it runs into a page that is not mapped
yet: there the string would end, and `copyinstr` fails. -/
theorem readTo_userByte (h : AddrSpace L p s) (max : ℕ) : ∀ va,
    (¬ReachesLazy s p va max →
      Cells.readTo (· == 0) (userByte s p.pagetable) va max = (umem s p).readStr va max) ∧
    (ReachesLazy s p va max → (Cells.readTo (· == 0) (userByte s p.pagetable) va max).1 = false ∧
      ((umem s p).readStr va max).1) := by
  unfold UMem.readStr
  induction max with
  | zero => exact fun va => ⟨fun _ => rfl, fun ⟨i, hi, _⟩ => by omega⟩
  | succ max ih =>
    intro va
    rw [reachesLazy_succ]
    by_cases hlazy : va / pgsize < npages p.sz ∧ (s.tbl p.pagetable).pte (va / pgsize) = none
    · refine ⟨fun hno => absurd (.inl hlazy) hno, fun _ => ?_⟩
      have hnone : userByte s p.pagetable va = none := by
        unfold userByte
        rw [hlazy.2]
        rfl
      rw [Cells.readTo_none hnone, Cells.readTo_some (get_of_lazy hlazy.1 hlazy.2)]
      exact ⟨rfl, rfl⟩
    · have heq := userByte_eq_get h hlazy
      cases hc : (umem s p).get va with
      | none =>
        rw [Cells.readTo_none (heq.trans hc), Cells.readTo_none hc]
        refine ⟨fun _ => rfl, fun hr => ?_⟩
        obtain ⟨⟨c, hc', -⟩, -⟩ := hr.resolve_left hlazy
        cases hc'
      | some c =>
        rw [Cells.readTo_some (heq.trans hc), Cells.readTo_some hc]
        by_cases h0 : c = 0
        · rw [if_pos (by simpa using h0), if_pos (by simpa using h0)]
          refine ⟨fun _ => rfl, fun hr => ?_⟩
          obtain ⟨⟨d, hd, hne⟩, -⟩ := hr.resolve_left hlazy
          exact absurd (Option.some.inj hd ▸ h0) hne
        · rw [if_neg (by simpa using h0), if_neg (by simpa using h0)]
          obtain ⟨hno, hyes⟩ := ih (va + 1)
          refine ⟨fun hr => ?_, fun hr => hyes (hr.resolve_left hlazy).2⟩
          rw [hno fun hr' => hr (.inr ⟨⟨c, rfl, h0⟩, hr'⟩)]

theorem copyinstr_umem (h : AddrSpace L p s) (va max : ℕ) :
    Tot (copyinstr p.pagetable va max) s fun x s' => s' = s ∧
      (¬ReachesLazy s p va max → x = (umem s p).readStr va max) ∧
      (ReachesLazy s p va max → x.1 = false ∧ ((umem s p).readStr va max).1) := by
  apply tot_mono (copyinstrLoop_exact h max le_rfl)
  rintro x s' ⟨hs, rfl⟩
  rw [List.nil_append]
  exact ⟨hs, readTo_userByte h max va⟩

/-! ## Lazy and eager allocation -/

/-- `sE` is `s` with every page below the size mapped: a new one is a zeroed page that was free. -/
structure Eager (L : Layout) (p : Proc) (s sE : St T) : Prop where
  space : AddrSpace L p sE
  old : ∀ v < npages p.sz, ∀ e, (s.tbl p.pagetable).pte v = some e →
    (sE.tbl p.pagetable).pte v = some e ∧ sE.mem e.pa = s.mem e.pa
  new : ∀ v < npages p.sz, (s.tbl p.pagetable).pte v = none → ∃ pa ∈ s.free,
    (sE.tbl p.pagetable).pte v = some ⟨lazyPerm, pa⟩ ∧ sE.mem pa = fun _ => 0

theorem Eager.mapped (h : Eager L p s sE) (hv : v < npages p.sz) :
    (sE.tbl p.pagetable).pte v ≠ none := by
  cases he : (s.tbl p.pagetable).pte v with
  | none =>
    obtain ⟨pa, -, hpa, -⟩ := h.new v hv he
    rw [hpa]
    exact Option.some_ne_none _
  | some e =>
    rw [(h.old v hv e he).1]
    exact Option.some_ne_none _

theorem Eager.umem (h : Eager L p s sE) : umem sE p = umem s p := by
  have hpage : ∀ a, a / pgsize < npages p.sz →
      ((sE.tbl p.pagetable).pte (a / pgsize)).elim lazyPerm Pte.perm =
        ((s.tbl p.pagetable).pte (a / pgsize)).elim lazyPerm Pte.perm ∧
      (((sE.tbl p.pagetable).pte (a / pgsize)).elim 0 fun e => sE.mem e.pa (a % pgsize)) =
        ((s.tbl p.pagetable).pte (a / pgsize)).elim 0 fun e => s.mem e.pa (a % pgsize) := by
    intro a hv
    cases he : (s.tbl p.pagetable).pte (a / pgsize) with
    | none =>
      obtain ⟨pa, -, hpa, hz⟩ := h.new _ hv he
      rw [hpa]
      refine ⟨rfl, ?_⟩
      show sE.mem pa _ = 0
      rw [hz]
    | some e =>
      obtain ⟨hpa, hm⟩ := h.old _ hv e he
      rw [hpa]
      refine ⟨rfl, ?_⟩
      show sE.mem e.pa _ = s.mem e.pa _
      rw [hm]
  apply UMem.ext
  · funext a
    unfold Vm.umem
    dsimp only
    split_ifs with hv
    · rw [(hpage a hv).1]
    · rfl
  · funext a
    unfold Vm.umem
    dsimp only
    split_ifs with hv
    · exact (hpage a hv).2
    · rfl

/-- Nothing is left to fault in. -/
theorem Eager.lazyPages (h : Eager L p s sE) (va len : ℕ) : lazyPages sE p va len = 0 := by
  unfold Vm.lazyPages
  rw [List.countP_eq_zero]
  intro v _ hv
  rw [decide_eq_true_eq] at hv
  exact h.mapped hv.1 hv.2

theorem Eager.not_reachesLazy (h : Eager L p s sE) {max : ℕ} : ¬ReachesLazy sE p va max :=
  fun ⟨_, _, hlt, hnone, _⟩ => h.mapped hlt hnone

/-- The call returns the same in both states and leaves the same user memory. -/
def Agree {α : Type} (p : Proc) (x : K T α) (s sE : St T) : Prop :=
  ∃ a s' sE', x s = .ok (a, s') ∧ x sE = .ok (a, sE') ∧ umem s' p = umem sE' p

theorem copyin_agree (h : AddrSpace L p s) (hE : Eager L p s sE) {len : ℕ}
    (hfree : 3 * lazyPages s p va len ≤ s.free.length) :
    Agree p (copyin L p p.pagetable va len) s sE := by
  obtain ⟨x, s', he, hx, hum⟩ := copyin_umem h va len hfree
  have hfreeE : 3 * lazyPages sE p va len ≤ sE.free.length := by
    rw [hE.lazyPages]
    exact Nat.zero_le _
  obtain ⟨y, sE', heE, hy, humE⟩ := copyin_umem hE.space va len hfreeE
  rw [hE.umem, ← hx] at hy
  subst hy
  exact ⟨y, s', sE', he, heE, by rw [hum, humE, hE.umem]⟩

theorem copyout_agree (h : AddrSpace L p s) (hE : Eager L p s sE) {src : List UInt8}
    (hfree : 3 * lazyPages s p va src.length ≤ s.free.length) :
    Agree p (copyout L p p.pagetable va src) s sE := by
  obtain ⟨x, s', he, hx⟩ := copyout_umem h va src hfree
  have hfreeE : 3 * lazyPages sE p va src.length ≤ sE.free.length := by
    rw [hE.lazyPages]
    exact Nat.zero_le _
  obtain ⟨y, sE', heE, hy⟩ := copyout_umem hE.space va src hfreeE
  rw [hE.umem, ← hx] at hy
  obtain ⟨rfl, hum⟩ := Prod.mk.inj hy
  exact ⟨y, s', sE', he, heE, hum.symm⟩

theorem copyinstr_agree_iff (h : AddrSpace L p s) (hE : Eager L p s sE) {max : ℕ} :
    Agree p (copyinstr p.pagetable va max) s sE ↔ ¬ReachesLazy s p va max := by
  obtain ⟨x, s', he, rfl, hno, hyes⟩ := copyinstr_umem h va max
  obtain ⟨y, sE', heE, rfl, hnoE, -⟩ := copyinstr_umem hE.space va max
  have hy := hnoE hE.not_reachesLazy
  rw [hE.umem] at hy
  constructor
  · rintro ⟨a, t, tE, ha, haE, -⟩ hr
    have hx : x = a := by
      have := he.symm.trans ha
      cases this
      rfl
    have hya : y = a := by
      have := heE.symm.trans haE
      cases this
      rfl
    obtain ⟨hf, ht⟩ := hyes hr
    rw [hx, ← hya, hy] at hf
    rw [ht] at hf
    cases hf
  · intro hr
    refine ⟨x, _, _, he, ?_, hE.umem.symm⟩
    rw [hno hr, ← hy]
    exact heE

/-! ## Building the eager state -/

/-- The pages below `k` have been faulted in. -/
structure EagerTo (L : Layout) (p : Proc) (k : ℕ) (s s' : St T) : Prop where
  space : AddrSpace L p s'
  rest : ∀ v, k ≤ v → (s'.tbl p.pagetable).pte v = (s.tbl p.pagetable).pte v
  old : ∀ v e, (s.tbl p.pagetable).pte v = some e → (s'.tbl p.pagetable).pte v = some e
  new : ∀ v < k, (s.tbl p.pagetable).pte v = none → ∃ pa ∈ s.free,
    (s'.tbl p.pagetable).pte v = some ⟨lazyPerm, pa⟩ ∧ s'.mem pa = fun _ => 0
  mem : ∀ pa ∉ s.free, s'.mem pa = s.mem pa
  drop : ∃ l, s.free = l ++ s'.free
  enough : 3 * lazyPages s' p (k * pgsize) (p.sz - k * pgsize) ≤ s'.free.length

theorem EagerTo.succ {k : ℕ} (h : EagerTo L p k s s') (hk : k < npages p.sz) :
    ∃ s'', EagerTo L p (k + 1) s s'' := by
  have hlt : k * pgsize < p.sz := by
    by_contra hge
    have := npages_le_iff.2 (not_lt.1 hge)
    omega
  have hdiv := div_pgsize k
  have hmod : k * pgsize % pgsize = 0 := Nat.mul_mod_left _ _
  have hsplit : lazyPages s' p (k * pgsize) (p.sz - k * pgsize) = _ := lazyPages_succ rfl (by omega)
  have hmin : p.sz - k * pgsize - min (pgsize - k * pgsize % pgsize) (p.sz - k * pgsize) =
      p.sz - (k + 1) * pgsize := by
    rw [hmod]
    unfold pgsize
    omega
  have henough := h.enough
  rw [hsplit, hdiv, hmin] at henough
  cases hp : (s.tbl p.pagetable).pte k with
  | some e =>
    refine ⟨s', h.space, fun v hv => h.rest v (by omega), h.old, fun v hv hn => ?_, h.mem, h.drop,
      by omega⟩
    have hne : v ≠ k := by
      rintro rfl
      rw [hp] at hn
      cases hn
    exact h.new v (by omega) hn
  | none =>
    have hp' : (s'.tbl p.pagetable).pte k = none := by rw [h.rest k le_rfl, hp]
    rw [if_pos ⟨hk, hp'⟩] at henough
    obtain ⟨pa, s'', -, hacc⟩ := vmfault_access (v := k) h.space
    obtain ⟨⟨e, he, -⟩, -⟩ | ha := hacc
    · rw [hp'] at he
      cases he
    have hsound := ha.sound h.space
    obtain ⟨hfr, hlen⟩ : Fresh p.pagetable k ⟨lazyPerm, pa⟩ (fun _ => 0) s' s'' ∧
        s'.free.length ≤ s''.free.length + 3 := by
      have := missing_le (s'.tbl p.pagetable) k
      cases ha with
      | hit he =>
        rw [hp'] at he
        cases he
      | fault _ _ _ hf hfree => exact ⟨hf, by omega⟩
      | miss _ hfree => exact absurd (hfree hp' hlt) (by omega)
    have hpte : ∀ v ≠ k, (s''.tbl p.pagetable).pte v = (s'.tbl p.pagetable).pte v := by
      intro v hv
      rw [hfr.pte, update_of_ne hv]
    obtain ⟨l, hl⟩ := h.drop
    obtain ⟨l', hl', -⟩ := hfr.drop
    refine ⟨s'', h.space.sound hsound, fun v hv => ?_,
      fun v e he => ?_, fun v hv hn => ?_, fun a ha => ?_, ⟨l ++ l', ?_⟩, ?_⟩
    · rw [hpte v (by omega), h.rest v (by omega)]
    · have hne : v ≠ k := by
        rintro rfl
        rw [hp] at he
        cases he
      rw [hpte v hne, h.old v e he]
    · by_cases hvk : v = k
      · subst hvk
        refine ⟨pa, ?_, ?_, hfr.page⟩
        · rw [hl]
          exact List.mem_append_right _ hfr.new
        · rw [hfr.pte, update_self]
      · obtain ⟨pa', hpa', hmap, hz⟩ := h.new v (by omega) hn
        refine ⟨pa', hpa', by rw [hpte v hvk, hmap], ?_⟩
        rw [hfr.mem _ (h.space.notMem_free (by omega) hmap), hz]
    · rw [hfr.mem a (fun hm => ha (by rw [hl]; exact List.mem_append_right _ hm)), h.mem a ha]
    · rw [hl, hl', List.append_assoc]
    · rw [lazyPages_congr fun v hv => hpte v (by omega)]
      omega

/-- Where memory suffices, faulting in every page gives the eager state. -/
theorem exists_eager (h : AddrSpace L p s) (hfree : 3 * lazyPages s p 0 p.sz ≤ s.free.length) :
    ∃ sE, Eager L p s sE := by
  have hto : ∀ k ≤ npages p.sz, ∃ s', EagerTo L p k s s' := by
    intro k
    induction k with
    | zero =>
      intro _
      refine ⟨s, h, fun _ _ => rfl, fun _ _ he => he, fun v hv => by omega, fun _ _ => rfl, ⟨[], rfl⟩, ?_⟩
      rwa [Nat.zero_mul, Nat.sub_zero]
    | succ k ih =>
      intro hk
      obtain ⟨s', hs'⟩ := ih (by omega)
      exact hs'.succ (by omega)
  obtain ⟨sE, hE⟩ := hto _ le_rfl
  refine ⟨sE, hE.space, fun v hv e he => ⟨hE.old v e he, ?_⟩, fun v hv hn => hE.new v hv hn⟩
  exact hE.mem _ (h.notMem_free hv he)

/-! ## The accessors -/

/-- For a well-formed address space and enough free memory, the three accessors do the same as if all
memory had been allocated eagerly, exactly if the string does not run into a page that is not mapped
yet. -/
theorem accessors_agree_iff (h : AddrSpace L p s) (hE : Eager L p s sE) (va len dstva : ℕ)
    (src : List UInt8) (srcva max : ℕ) (hin : 3 * lazyPages s p va len ≤ s.free.length)
    (hout : 3 * lazyPages s p dstva src.length ≤ s.free.length) :
    (Agree p (copyin L p p.pagetable va len) s sE ∧
      Agree p (copyout L p p.pagetable dstva src) s sE ∧
      Agree p (copyinstr p.pagetable srcva max) s sE) ↔ ¬ReachesLazy s p srcva max := by
  rw [copyinstr_agree_iff h hE]
  constructor
  · exact fun hall => hall.2.2
  · exact fun hr => ⟨copyin_agree h hE hin, copyout_agree h hE hout, hr⟩

theorem exists_one_lazy : ∃ (s sE : St (Fin 64)) (p : Proc), AddrSpace someLayout p s ∧
    Eager someLayout p s sE ∧ p.sz = 1 ∧ s.free.length = 4 ∧ (s.tbl p.pagetable).pte 0 = none := by
  obtain ⟨s, p, hr, hp, hsz, hfree, hpte⟩ := exists_sbrk 1 (by norm_num)
  have hi : Inv someLayout somePages s := reach_inv (by decide) (by decide) hr
  have h : AddrSpace someLayout p s := hi.addrSpace hp
  have hlazy : lazyPages s p 0 p.sz ≤ 1 := by
    rw [hsz]
    exact List.countP_le_length
  obtain ⟨sE, hE⟩ := exists_eager h (by omega)
  exact ⟨s, sE, p, h, hE, hsz, hfree, hpte⟩

/-- Reading and writing the page that is not mapped yet, and a string outside of memory. -/
theorem accessors_agree_one : ∃ (s sE : St (Fin 64)) (p : Proc), Eager someLayout p s sE ∧
    (s.tbl p.pagetable).pte 0 = none ∧
    Agree p (copyin someLayout p p.pagetable 0 1) s sE ∧
    Agree p (copyout someLayout p p.pagetable 0 [7]) s sE ∧
    Agree p (copyinstr p.pagetable pgsize 1) s sE := by
  obtain ⟨s, sE, p, h, hE, hsz, hfree, hpte⟩ := exists_one_lazy
  have hlazy : lazyPages s p 0 1 ≤ 1 := List.countP_le_length
  have hno : ¬ReachesLazy s p pgsize 1 := by
    rintro ⟨i, hi, hlt, -⟩
    rw [hsz] at hlt
    unfold npages pgsize at hlt
    omega
  have hagree := (accessors_agree_iff h hE 0 1 0 [7] pgsize 1
    (by omega) (by show 3 * lazyPages s p 0 1 ≤ _; omega)).2 hno
  exact ⟨s, sE, p, hE, hpte, hagree⟩

/-- A string in the page that is not mapped yet: `copyinstr` fails, but finds the empty string if the
page is mapped. -/
theorem copyinstr_fails_on_lazy : ∃ (s sE : St (Fin 64)) (p : Proc), AddrSpace someLayout p s ∧
    Eager someLayout p s sE ∧ 3 * lazyPages s p 0 1 ≤ s.free.length ∧
    (∃ x, copyinstr p.pagetable 0 1 s = .ok (x, s) ∧ x.1 = false) ∧
    copyinstr p.pagetable 0 1 sE = .ok ((true, [0]), sE) := by
  obtain ⟨s, sE, p, h, hE, hsz, hfree, hpte⟩ := exists_one_lazy
  have hlazy : lazyPages s p 0 1 ≤ 1 := List.countP_le_length
  have hv : 0 / pgsize < npages p.sz := by
    rw [hsz]
    decide
  have hr : ReachesLazy s p 0 1 := ⟨0, by omega, hv, hpte, fun j hj => by omega⟩
  have hstr : (umem s p).readStr 0 1 = (true, [0]) := by
    unfold UMem.readStr
    rw [Cells.readTo_some (get_of_lazy hv hpte)]
    rfl
  obtain ⟨x, s', he, hs, -, hyes⟩ := copyinstr_umem h 0 1
  obtain ⟨y, sE', heE, hsE, hnoE, -⟩ := copyinstr_umem hE.space 0 1
  rw [hs] at he
  rw [hsE] at heE
  refine ⟨s, sE, p, h, hE, by omega, ⟨x, he, (hyes hr).1⟩, ?_⟩
  have hy := hnoE hE.not_reachesLazy
  rw [hE.umem, hstr] at hy
  subst hy
  exact heE

/-! ## The copies, byte by byte -/

/-- **The copies are what their byte-wise specification says**, for every well-formed address space,
every address and every length. -/
theorem copies_exact (L : Layout) (p : Proc) (s : St T) (h : AddrSpace L p s) (va : ℕ)
    (hva : va < 2 ^ 64) :
    (∀ src : List UInt8, Tot (copyout L p p.pagetable va src) s fun ok s' =>
      (ok = true ↔ (s.tbl p.pagetable).Accessible true p.sz s.free.length va src.length) ∧
      (ok = true → umem s' p = { umem s p with byte := Cells.put (umem s p).byte va src }) ∧
      Within p.pagetable s s') ∧
    (∀ len : ℕ, Tot (copyin L p p.pagetable va len) s fun x s' =>
      (x.1 = true ↔ (s.tbl p.pagetable).Accessible false p.sz s.free.length va len) ∧
      (x.1 = true → x.2 = (List.range len).map fun i => (umem s p).byte (va + i)) ∧
      umem s' p = umem s p ∧ Within p.pagetable s s') ∧
    ∀ max : ℕ, Tot (copyinstr p.pagetable va max) s fun x s' => s' = s ∧
      (x.1 = true ↔ ∃ k < max, StringAt s p.pagetable va k) ∧
      (∀ k < max, StringAt s p.pagetable va k → x.2.length = k + 1 ∧
        ∀ j ≤ k, x.2[j]? = userByte s p.pagetable (va + j)) ∧ x.2.length ≤ max := by
  have hok := h.space.ok
  have hsz := h.proc_ok.sz_le
  refine ⟨fun src => ?_, fun len => ?_, fun max => ?_⟩
  · apply tot_mono (copyoutLoop_exact src.length le_rfl h)
    rintro ok s' ⟨hiff, ⟨k, -, hk, hbytes⟩, -, hw⟩
    refine ⟨hiff.trans (allowed_iff hok hsz hva), fun htrue => ?_, hw⟩
    rw [hbytes, hk.1 htrue, List.take_length]
  · apply tot_mono (copyinLoop_exact len le_rfl h)
    rintro x s' ⟨hiff, ⟨k, -, hk, hbytes⟩, -, hum, hw⟩
    refine ⟨hiff.trans (allowed_iff hok hsz hva), fun hx => ?_, hum, hw⟩
    rw [hbytes, hk.1 hx, List.nil_append]
  · apply tot_mono (copyinstrLoop_exact h max le_rfl)
    rintro x s' ⟨hs, rfl⟩
    rw [List.nil_append]
    refine ⟨hs, ?_, fun k hk hstr => ?_, Cells.length_readTo_le max va⟩
    · rw [Cells.readTo_eq_true_iff]
      exact exists_congr fun k => and_congr_right fun _ => stringAt_iff hok hva
    · exact Cells.readTo_of_endsAt max hk ((stringAt_iff hok hva).2 hstr)

/-- A process with one page that is not mapped yet: one byte is written to it. -/
theorem copies_exact_one : ∃ (s : St (Fin 64)) (p : Proc), AddrSpace someLayout p s ∧
    Tot (copyout someLayout p p.pagetable 0 [7]) s fun ok s' =>
      (ok = true ↔ (s.tbl p.pagetable).Accessible true p.sz s.free.length 0 1) ∧
      (ok = true → umem s' p = { umem s p with byte := Cells.put (umem s p).byte 0 [7] }) := by
  obtain ⟨s, -, p, h, -⟩ := exists_one_lazy
  refine ⟨s, p, h, ?_⟩
  apply tot_mono ((copies_exact someLayout p s h 0 (by norm_num)).1 [7])
  exact fun _ _ hq => ⟨hq.1, hq.2.1⟩

end Xv6.Vm
