import Xv6.Vm.User

/-!
# Page faults

`vmfault` takes a page for the user and one for each level of the page table that is missing over
it. It succeeds if and only if that many pages are free. Whatever it does stays within the pages of
the process and the free pages.
-/

namespace Xv6.Vm

open Finset

variable {T : Type} [DecidableEq T] {L : Layout} {s s' s'' : St T} {r r' va pa v : ℕ} {t t' : Tbl}
  {e : Pte} {p : Proc} {perm : Perm}

/-! ## The pages that a mapping takes -/

/-- The number of page-table pages that are missing over page `v`. -/
def Tbl.missing (t : Tbl) (v : ℕ) : ℕ :=
  (if t.mid (v / 512 / 512) = none then 1 else 0) + if t.low (v / 512) = none then 1 else 0

/-- The page-table pages over page `v` were added. -/
structure Tbl.Over (t t' : Tbl) (v : ℕ) : Prop where
  mid : ∀ i, t'.mid i = none ↔ t.mid i = none ∧ i ≠ v / 512 / 512
  low : ∀ j, t'.low j = none ↔ t.low j = none ∧ j ≠ v / 512

/-- An entry that was added, or that was there. -/
theorem update_eq_none_iff {α : Type} (f : ℕ → Option α) (i : ℕ) (x : α) (k : ℕ) :
    Function.update f i (some x) k = none ↔ f k = none ∧ k ≠ i := by
  by_cases hk : k = i
  · subst hk
    simp
  · simp [hk]

theorem none_iff_of_some {α : Type} {f : ℕ → Option α} {i : ℕ} (h : f i ≠ none) (k : ℕ) :
    f k = none ↔ f k = none ∧ k ≠ i :=
  ⟨fun hk => ⟨hk, fun he => h (he ▸ hk)⟩, fun hk => hk.1⟩

theorem walk_exact (h : PtOk (s.tbl r)) (hva : va < maxva) (hv : va / pgsize = v) :
    Tot (walk r va true) s fun ok s' => (ok ↔ (s.tbl r).missing v ≤ s.free.length) ∧
      (ok → s.free.length = s'.free.length + (s.tbl r).missing v ∧
        (s.tbl r).Over (s'.tbl r) v) := by
  subst hv
  have hlow : va / pgsize / 512 = va / 2 ^ 21 := div_pgsize_div va
  have hmid : va / 2 ^ 21 / 512 = va / 2 ^ 30 := div_two_pow_div va
  have hzero : ∀ m : ℕ, (if some m = none then 1 else 0) = 0 := fun _ => if_neg (by simp)
  unfold walk Tbl.missing
  rw [if_neg (by omega), hlow, hmid]
  apply tot_get
  cases hm : (s.tbl r).mid (va / 2 ^ 30) with
  | some m =>
    apply tot_bind
    apply tot_pure
    rw [if_pos rfl, hzero m, Nat.zero_add]
    apply tot_get
    have hmid' := none_iff_of_some (f := (s.tbl r).mid) (i := va / 2 ^ 30) (by rw [hm]; simp)
    cases hl : (s.tbl r).low (va / 2 ^ 21) with
    | some j =>
      rw [hzero j]
      refine tot_pure ⟨by simp, fun _ => ⟨rfl, ?_, ?_⟩⟩
      · rw [hlow, hmid]
        exact hmid'
      · rw [hlow]
        exact none_iff_of_some (by rw [hl]; simp)
    | none =>
      rw [if_pos rfl, if_pos rfl]
      apply tot_kalloc
      · intro hf
        exact tot_pure ⟨by simp [hf], nofun⟩
      · intro pa l hf
        apply tot_modify
        have hset : ((s.take pa l).setLow r (va / 2 ^ 21) pa).tbl r =
            (s.tbl r).withLow (va / 2 ^ 21) (some pa) := by
          rw [setLow_eq (s := s.take pa l) h hl, setTbl_tbl]
          rfl
        refine tot_pure ⟨by simp [hf], fun _ => ⟨by rw [hf]; rfl, ?_, ?_⟩⟩
        · rw [hset, hlow, hmid]
          exact hmid'
        · rw [hset, hlow]
          exact update_eq_none_iff _ _ _
  | none =>
    -- without a page at the root level there is none below it
    have hl : (s.tbl r).low (va / 2 ^ 21) = none := by
      by_contra hne
      have := h.low_mid _ (Option.isSome_iff_ne_none.2 hne)
      rw [hmid, hm] at this
      exact absurd this (by simp)
    rw [if_pos rfl, if_pos hl]
    apply tot_bind
    rw [if_pos rfl]
    apply tot_kalloc
    · intro hf
      apply tot_pure
      exact tot_pure ⟨by simp [hf], nofun⟩
    · intro pa l hf
      apply tot_modify
      apply tot_pure
      have hset : ((s.take pa l).setMid r (va / 2 ^ 30) pa).tbl r =
          (s.tbl r).withMid (va / 2 ^ 30) (some pa) := by
        rw [setMid_eq (s := s.take pa l) h hm, setTbl_tbl]
        rfl
      have hok : PtOk (((s.take pa l).setMid r (va / 2 ^ 30) pa).tbl r) := by
        rw [hset]
        exact h.withMid (by unfold maxva at hva; omega) pa
      have hl' : (((s.take pa l).setMid r (va / 2 ^ 30) pa).tbl r).low (va / 2 ^ 21) = none := by
        rw [hset]
        exact hl
      rw [if_pos rfl]
      apply tot_get
      rw [hl', if_pos rfl]
      apply tot_kalloc
      · intro hf'
        have hl0 : l = [] := hf'
        exact tot_pure ⟨by simp [hf, hl0], nofun⟩
      · intro pa' l' hf'
        have hl0 : l = pa' :: l' := hf'
        apply tot_modify
        rw [setLow_eq (s := ((s.take pa l).setMid r (va / 2 ^ 30) pa).take pa' l') hok hl']
        have htbl : ((((s.take pa l).setMid r (va / 2 ^ 30) pa).take pa' l').setTbl r
            (((((s.take pa l).setMid r (va / 2 ^ 30) pa).take pa' l').tbl r).withLow (va / 2 ^ 21)
              (some pa'))).tbl r =
            ((s.tbl r).withMid (va / 2 ^ 30) (some pa)).withLow (va / 2 ^ 21) (some pa') := by
          rw [setTbl_tbl, ← hset]
          rfl
        refine tot_pure ⟨by simp [hf, hl0], fun _ => ⟨?_, ?_, ?_⟩⟩
        · rw [hf, hl0]
          rfl
        · rw [htbl, hlow, hmid]
          exact update_eq_none_iff _ _ _
        · rw [htbl, hlow]
          exact update_eq_none_iff _ _ _

theorem mappages_exact (h : PtOk (s.tbl r)) (hv : v < 2 ^ 26) (hnone : (s.tbl r).pte v = none) :
    Tot (mappages r (v * pgsize) pgsize pa perm) s fun ok s' =>
      (ok ↔ (s.tbl r).missing v ≤ s.free.length) ∧
      (ok → s.free.length = s'.free.length + (s.tbl r).missing v ∧
        (s.tbl r).Over (s'.tbl r) v) := by
  unfold mappages
  rw [if_neg (by rw [Nat.mul_mod_left]; simp), if_neg (by rw [Nat.mod_self]; simp),
    if_neg (by unfold pgsize; norm_num), Nat.div_self (by unfold pgsize; norm_num)]
  unfold mappagesLoop
  apply tot_bind
  apply tot_mono (tot_and (walk_true h (mul_pgsize_lt hv)) (walk_exact h (mul_pgsize_lt hv) (div_pgsize v)))
  rintro ok s1 ⟨⟨hg, -, -⟩, hiff, hsucc⟩
  cases ok with
  | false => exact tot_pure ⟨hiff, by simp⟩
  | true =>
    obtain ⟨hlen, hover⟩ := hsucc rfl
    rw [if_pos rfl]
    apply tot_get
    rw [div_pgsize, hg.pte, hnone, if_neg (by simp)]
    apply tot_modify
    unfold mappagesLoop
    refine tot_pure ⟨hiff, fun _ => ⟨hlen, ?_⟩⟩
    rw [setPte_eq, setTbl_tbl]
    exact ⟨hover.mid, hover.low⟩

/-! ## What the work of a process can touch -/

/-- Only the table at `r`, its user pages and free pages were used. -/
structure Within (r : ℕ) (s s' : St T) : Prop extends Frame r s s' where
  free : ∀ pa ∈ s'.free, pa ∈ s.free
  mem : ∀ pa ∉ s.free, ¬(s.tbl r).Maps 0 userPages pa → s'.mem pa = s.mem pa
  maps : ∀ pa, (s'.tbl r).Maps 0 userPages pa → (s.tbl r).Maps 0 userPages pa ∨ pa ∈ s.free

theorem Within.refl (r : ℕ) (s : St T) : Within r s s :=
  ⟨.refl r s, fun _ h => h, fun _ _ _ => rfl, fun _ h => .inl h⟩

theorem Within.trans (h : Within r s s') (h' : Within r s' s'') : Within r s s'' where
  toFrame := h.toFrame.trans h'.toFrame
  free pa hpa := h.free pa (h'.free pa hpa)
  mem pa hpa hnot := by
    rw [h'.mem pa (fun hm => hpa (h.free pa hm)) fun hm => (h.maps pa hm).elim hnot hpa,
      h.mem pa hpa hnot]
  maps pa hpa := by
    rcases h'.maps pa hpa with hm | hm
    · exact h.maps pa hm
    · exact .inr (h.free pa hm)

theorem Fresh.within {x : Page} (h : Fresh r v e x s s') : Within r s s' where
  toFrame := h.toFrame
  free := h.free_subset
  mem pa hpa _ := h.mem pa hpa
  maps pa hpa := by
    by_cases hf : pa ∈ s.free
    · exact .inr hf
    · exact .inl (h.maps hf hpa)

/-- A write to a user page of the table. -/
theorem within_setMem (hv : v < userPages) (he : (s.tbl r).pte v = some e) (x : Page) :
    Within r s (s.setMem e.pa x) where
  toFrame := frame_setMem s r e.pa x
  free _ h := h
  mem pa _ hnot := by
    apply Function.update_of_ne
    rintro rfl
    exact hnot ⟨v, e, Nat.zero_le _, hv, hv, he, rfl⟩
  maps _ h := .inl h

/-- Where no user page is unmapped, no page becomes free: it would have been a page of the table, and
all of those are still there. -/
theorem Kept.free_subset (hk : Kept r s s')
    (hpte : ∀ v < userPages, ∀ e, (s.tbl r).pte v = some e → (s'.tbl r).pte v = some e) :
    ∀ pa ∈ s'.free, pa ∈ s.free := by
  intro pa hpa
  have hle : pages (s.tbl r) ≤ pages (s'.tbl r) := by
    unfold pages
    gcongr
    · exact held_mono fun i _ => hk.nodes.mid i
    · exact held_mono fun j _ => hk.nodes.low j
    · apply held_mono
      intro v hv a ha
      unfold userPage at ha ⊢
      obtain ⟨e, he, rfl⟩ := Option.map_eq_some_iff.1 ha
      rw [hpte v (mem_below.1 hv) e he]
      rfl
  have hb : (s'.free : Multiset ℕ) + pages (s'.tbl r) = (s.free : Multiset ℕ) + pages (s.tbl r) := by
    have := hk.bag
    unfold bag at this
    rw [add_right_comm, add_right_comm (s.free : Multiset ℕ)] at this
    exact add_right_cancel this
  have hsub : (s'.free : Multiset ℕ) ≤ s.free := by
    apply le_of_add_le_add_right (a := pages (s.tbl r))
    rw [← hb]
    exact add_le_add_right hle _
  exact Multiset.mem_coe.1 (Multiset.mem_of_le hsub (Multiset.mem_coe.2 hpa))

/-- Work on the table at `r` that neither maps a page nor writes to one. -/
theorem Kept.within (hk : Kept r s s') (hpte : (s'.tbl r).pte = (s.tbl r).pte)
    (hmem : ∀ pa ∉ s.free, s'.mem pa = s.mem pa) : Within r s s' where
  toFrame := hk.toFrame
  free := hk.free_subset fun v _ e he => by rw [hpte, he]
  mem pa hpa _ := hmem pa hpa
  maps pa := by
    rintro ⟨k, f, h1, h2, h3, hf, rfl⟩
    rw [hpte] at hf
    exact .inl ⟨k, f, h1, h2, h3, hf, rfl⟩

/-! ## One access -/

/-- How an access to page `v` can end, and the address it finds: the page is mapped for the user, or
it is mapped now, or there is no page for the user. -/
inductive Access (L : Layout) (p : Proc) (v : ℕ) (s : St T) : ℕ → St T → Prop
  | hit {e : Pte} : (s.tbl p.pagetable).pte v = some e → e.perm.u = true → e.pa ≠ 0 →
      Access L p v s e.pa s
  | fault {pa : ℕ} {s' : St T} : (s.tbl p.pagetable).pte v = none → v * pgsize < p.sz → pa ≠ 0 →
      Fresh p.pagetable v ⟨lazyPerm, pa⟩ (fun _ => 0) s s' →
      s.free.length = s'.free.length + (1 + (s.tbl p.pagetable).missing v) →
      (s.tbl p.pagetable).Over (s'.tbl p.pagetable) v → Access L p v s pa s'
  | miss {s' : St T} : (∀ e, (s.tbl p.pagetable).pte v = some e → e.perm.u = false) →
      ((s.tbl p.pagetable).pte v = none → v * pgsize < p.sz →
        s.free.length < 1 + (s.tbl p.pagetable).missing v) →
      Kept p.pagetable s s' → (s'.tbl p.pagetable).pte = (s.tbl p.pagetable).pte →
      (∀ pa ∉ s.free, s'.mem pa = s.mem pa) → Access L p v s 0 s'

variable (h : AddrSpace L p s)

include h

/-- User memory depends on the entries and on pages that are not free. -/
theorem AddrSpace.umem_congr (hpte : (s'.tbl p.pagetable).pte = (s.tbl p.pagetable).pte)
    (hmem : ∀ pa ∉ s.free, s'.mem pa = s.mem pa) : umem s' p = umem s p := by
  unfold umem
  rw [hpte]
  congr 1
  funext a
  split_ifs with ha
  · cases he : (s.tbl p.pagetable).pte (a / pgsize) with
    | none => rfl
    | some e =>
      dsimp only [Option.elim]
      rw [hmem _ (h.notMem_free ha he)]
  · rfl

theorem vmfault_access :
    Tot (vmfault L p p.pagetable (v * pgsize)) s fun pa s' =>
      (∃ e, (s.tbl p.pagetable).pte v = some e ∧ e.perm.u) ∧ s' = s ∨
        Access L p v s pa s' := by
  have hmiss : (∀ e, (s.tbl p.pagetable).pte v = some e → e.perm.u = false) →
      ((s.tbl p.pagetable).pte v = none → v * pgsize < p.sz →
        s.free.length < 1 + (s.tbl p.pagetable).missing v) → Access L p v s 0 s :=
    fun hu hfree => .miss hu hfree (.refl h.space.ok) rfl fun _ _ => rfl
  have hdown : pgrounddown (v * pgsize) = v * pgsize := by
    unfold pgrounddown
    rw [div_pgsize]
  unfold vmfault
  by_cases hge : v * pgsize ≥ p.sz
  · rw [if_pos hge]
    by_cases hu : ∃ e, (s.tbl p.pagetable).pte v = some e ∧ e.perm.u = true
    · exact tot_pure (.inl ⟨hu, rfl⟩)
    · refine tot_pure (.inr (hmiss (fun e he => ?_) fun _ hlt => by omega))
      exact Bool.eq_false_iff.2 fun hue => hu ⟨e, he, hue⟩
  · rw [if_neg hge, hdown]
    have hlt := h.lt_userPages (lt_npages (by omega : v * pgsize < p.sz))
    have hlt' : v < 2 ^ 26 := by
      unfold userPages at hlt
      omega
    apply tot_bind_eq (ismapped_eq h.space.ok (mul_pgsize_lt hlt'))
    rw [div_pgsize]
    cases hp : (s.tbl p.pagetable).pte v with
    | some e =>
      rw [Option.isSome_some, if_pos rfl]
      apply tot_pure
      cases hu : e.perm.u with
      | true => exact .inl ⟨⟨e, rfl, hu⟩, rfl⟩
      | false =>
        refine .inr (hmiss (fun f hf => ?_) fun hnone => by rw [hp] at hnone; cases hnone)
        rw [hp] at hf
        rw [← Option.some.inj hf, hu]
    | none =>
      have hu : ∀ e, (s.tbl p.pagetable).pte v = some e → e.perm.u = false := fun e he => by
        rw [hp] at he
        cases he
      rw [Option.isSome_none, if_neg (by simp)]
      apply tot_kalloc
      · intro hf
        refine tot_pure (.inr (hmiss hu fun _ _ => ?_))
        rw [hf, List.length_nil]
        omega
      · intro pa l hf
        have hpa : PageOk L pa :=
          h.space.page pa (mem_bag_of_free (by rw [hf]; exact List.mem_cons_self))
        have hlen : s.free.length = l.length + 1 := by rw [hf, List.length_cons]
        apply tot_modify
        apply tot_bind
        apply tot_mono (tot_and (mappages_fresh h.space hf hlt hp _)
          (mappages_exact (s := (s.take pa l).setMem pa fun _ => 0) h.space.ok hlt' hp))
        rintro ok s1 ⟨⟨hfresh, hlost, -⟩, hiff, hsucc⟩
        have hiff' : ok ↔ (s.tbl p.pagetable).missing v ≤ l.length := hiff
        cases ok with
        | true =>
          obtain ⟨hfree, hover⟩ := hsucc rfl
          have hfree' : l.length = s1.free.length + (s.tbl p.pagetable).missing v := hfree
          exact tot_pure (.inr (.fault hp (by omega) hpa.ne_zero (hfresh rfl) (by omega) hover))
        | false =>
          obtain ⟨hk1, hp1, hm1⟩ := hlost rfl
          have hno : ¬(s.tbl p.pagetable).missing v ≤ l.length := fun hle =>
            absurd (hiff'.2 hle) (by simp)
          rw [if_neg (by simp)]
          apply tot_bind_eq (kfree_ok hpa)
          exact tot_pure (.inr (.miss hu (fun _ _ => by omega) hk1 hp1 hm1))

theorem AddrSpace.not_user (h0 : userPa (s.tbl p.pagetable) v = 0)
    (he : (s.tbl p.pagetable).pte v = some e) : e.perm.u = false := by
  by_contra hu
  rw [Bool.not_eq_false] at hu
  have hpa : userPa (s.tbl p.pagetable) v = e.pa := by
    unfold userPa
    rw [he]
    exact if_pos hu
  -- the trapframe and the trampoline are not mapped for the user
  have hlt : v < userPages := by
    have hlt := h.space.ok.pte_lt (v := v) (by rw [he]; rfl)
    by_contra hge
    have hv : v = userPages ∨ v = userPages + 1 := by
      unfold userPages at hge ⊢
      omega
    rcases hv with rfl | rfl
    · rw [h.proc_ok.trapframe] at he
      rw [← Option.some.inj he] at hu
      cases hu
    · rw [h.proc_ok.trampoline] at he
      rw [← Option.some.inj he] at hu
      cases hu
  exact (h.space.page _ (mem_bag_of_pte hlt he)).ne_zero (hpa.symm.trans h0)

theorem faultIn_access :
    Tot (faultIn L p p.pagetable (v * pgsize)) s fun pa s' => Access L p v s pa s' := by
  unfold faultIn
  apply tot_bind_eq (walkaddr_eq h.space.ok)
  rw [div_pgsize]
  by_cases h0 : userPa (s.tbl p.pagetable) v = 0
  · rw [if_pos h0]
    apply tot_mono (vmfault_access h)
    rintro pa s' (⟨⟨e, he, hu⟩, -⟩ | ha)
    · rw [h.not_user h0 he] at hu
      cases hu
    · exact ha
  · rw [if_neg h0]
    obtain ⟨-, e, he, hpa, hu⟩ := h.of_userPa h0
    rw [← hpa]
    exact tot_pure (.hit he hu (hpa ▸ h0))

theorem Access.sound (ha : Access L p v s pa s') : Sound L p s s' := by
  cases ha with
  | hit => exact .refl h.space h.proc_ok
  | fault hnone hlt hpa hf =>
    have hup := h.lt_userPages (lt_npages hlt)
    refine ⟨hf.toKept, procOk_of_high h.proc_ok.sz_le (fun k hk => ?_) fun k hk hk' => ?_⟩
    · rw [hf.pte, Function.update_of_ne (by omega)]
      exact h.proc_ok.high h.space.ok k hk
    · have := lt_npages hlt
      rw [hf.pte, Function.update_of_ne (by omega)]
      exact h.proc_ok.none k hk hk'
  | miss _ _ hk hpte => exact ⟨hk, h.proc_ok.congr hpte⟩

theorem vmfault_sound : Tot (vmfault L p p.pagetable va) s fun _ s' => Sound L p s s' := by
  by_cases hva : va ≥ p.sz
  · unfold vmfault
    rw [if_pos hva]
    exact tot_pure (.refl h.space h.proc_ok)
  · have heq : (vmfault L p p.pagetable va : K T ℕ) =
        vmfault L p p.pagetable (va / pgsize * pgsize) := by
      have := Nat.div_mul_le_self va pgsize
      unfold vmfault pgrounddown
      rw [if_neg hva, if_neg (by omega), div_pgsize]
    rw [heq]
    apply tot_mono (vmfault_access h)
    rintro pa s' (⟨-, rfl⟩ | ha)
    · exact .refl h.space h.proc_ok
    · exact ha.sound h

theorem Access.umem (ha : Access L p v s pa s') : umem s' p = umem s p := by
  cases ha with
  | hit => rfl
  | fault hnone hlt _ hf => exact umem_fresh h hnone hf
  | miss _ _ _ hpte hmem => exact h.umem_congr hpte hmem

omit h in
theorem Access.within (ha : Access L p v s pa s') : Within p.pagetable s s' := by
  cases ha with
  | hit => exact .refl _ s
  | fault _ _ _ hf => exact hf.within
  | miss _ _ hk hpte hmem => exact hk.within hpte hmem

theorem Access.found (ha : Access L p v s pa s') (h0 : pa ≠ 0) :
    v < npages p.sz ∧ ∃ e, (s'.tbl p.pagetable).pte v = some e ∧ e.pa = pa ∧ e.perm.u := by
  cases ha with
  | hit he hu hpa =>
    have hpa' : userPa (s.tbl p.pagetable) v ≠ 0 := by
      unfold userPa
      rw [he]
      simpa [hu] using hpa
    exact ⟨(h.of_userPa hpa').1, _, he, rfl, hu⟩
  | fault hnone hlt _ hf =>
    exact ⟨lt_npages hlt, _, by rw [hf.pte, Function.update_self], rfl, rfl⟩
  | miss => exact absurd rfl h0

end Xv6.Vm
