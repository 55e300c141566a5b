import Xv6.Vm.Image

/-!
# The stack of a new image

`kexec` copies the argument strings to the new stack from its top downwards, each at a multiple of
16, and the array of their addresses below them. The arguments fit if the strings and the array,
rounded up to multiples of 16, are no longer than the stack.
-/

namespace Xv6.Vm

open Function Finset
open Image (Building)

variable {T : Type} [DecidableEq T] {L : Layout} {s s' s₀ : St T} {r v sz : ℕ} {e : Pte} {p : Proc}
  {argv : List (List UInt8)} {arg : List UInt8} {sp : ℕ} {f : ℕ → UInt8}

/-! ## Layout -/

def up16 (n : ℕ) : ℕ := (n + 15) / 16 * 16

/-- The bytes that the strings take. -/
def argSpace (argv : List (List UInt8)) : ℕ := (argv.map fun arg => up16 (arg.length + 1)).sum

/-- The bytes that the strings and the array of their addresses take. -/
def blockSize (argv : List (List UInt8)) : ℕ := argSpace argv + up16 ((argv.length + 1) * 8)

/-- The arguments fit on the stack, and into `ustack`. -/
def Fits (argv : List (List UInt8)) : Prop :=
  blockSize argv ≤ userStack * pgsize ∧ argv.length ≤ maxArg

/-- The addresses of the strings, below `sp`. -/
def ptrs : List (List UInt8) → ℕ → List ℕ
  | [], _ => []
  | arg :: argv, sp => (sp - up16 (arg.length + 1)) :: ptrs argv (sp - up16 (arg.length + 1))

/-- Memory after the strings were copied to it. -/
def store : List (List UInt8) → ℕ → (ℕ → UInt8) → ℕ → UInt8
  | [], _, f => f
  | arg :: argv, sp, f => store argv (sp - up16 (arg.length + 1))
      (Cells.put f (sp - up16 (arg.length + 1)) (arg ++ [0]))

theorem argSpace_cons (arg : List UInt8) (argv : List (List UInt8)) :
    argSpace (arg :: argv) = up16 (arg.length + 1) + argSpace argv := by
  unfold argSpace
  rw [List.map_cons, List.sum_cons]

theorem length_ptrs : ∀ (argv : List (List UInt8)) (sp : ℕ), (ptrs argv sp).length = argv.length
  | [], _ => rfl
  | arg :: argv, sp => by rw [ptrs, List.length_cons, length_ptrs argv, List.length_cons]

theorem argSpace_mod : ∀ argv : List (List UInt8), argSpace argv % 16 = 0
  | [] => rfl
  | arg :: argv => by
    have := argSpace_mod argv
    rw [argSpace_cons]
    unfold up16
    omega

theorem length_le_up16 (arg : List UInt8) : (arg ++ [0]).length ≤ up16 (arg.length + 1) := by
  rw [List.length_append, List.length_singleton]
  unfold up16
  omega

/-- Outside the space of the strings nothing is written. -/
theorem store_of_outside : ∀ {argv : List (List UInt8)} {sp : ℕ} {f : ℕ → UInt8} {a : ℕ},
    argSpace argv ≤ sp → (a < sp - argSpace argv ∨ sp ≤ a) → store argv sp f a = f a
  | [], _, _, _, _, _ => rfl
  | arg :: argv, sp, f, a, hfit, ha => by
    rw [argSpace_cons] at hfit ha
    have hlen := length_le_up16 arg
    rw [store, store_of_outside (by omega) (by omega)]
    rcases ha with ha | ha
    · exact Cells.put_of_lt (by omega)
    · exact Cells.put_of_ge (by omega)

/-- Every string lies in the space below `sp`, at a multiple of 16. -/
theorem ptrs_bounds : ∀ {argv : List (List UInt8)} {sp : ℕ}, sp % 16 = 0 → argSpace argv ≤ sp →
    ∀ x ∈ argv.zip (ptrs argv sp), sp - argSpace argv ≤ x.2 ∧ x.2 + x.1.length + 1 ≤ sp ∧ x.2 % 16 = 0
  | [], _, _, _ => nofun
  | arg :: argv, sp, hal, hfit => by
    rw [argSpace_cons] at hfit
    have hlen := length_le_up16 arg
    rw [List.length_append, List.length_singleton] at hlen
    have hal' : (sp - up16 (arg.length + 1)) % 16 = 0 := by
      unfold up16 at *
      omega
    intro x hx
    rw [ptrs, List.zip_cons_cons] at hx
    rw [argSpace_cons]
    rcases List.mem_cons.1 hx with rfl | hx
    · dsimp only
      omega
    · have := ptrs_bounds hal' (by omega) x hx
      omega

/-- Each string lies below those before it. -/
theorem ptrs_pairwise : ∀ {argv : List (List UInt8)} {sp : ℕ}, sp % 16 = 0 → argSpace argv ≤ sp →
    (argv.zip (ptrs argv sp)).Pairwise fun x y => y.2 + y.1.length + 1 ≤ x.2
  | [], _, _, _ => .nil
  | arg :: argv, sp, hal, hfit => by
    rw [argSpace_cons] at hfit
    have hal' : (sp - up16 (arg.length + 1)) % 16 = 0 := by
      unfold up16 at *
      omega
    rw [ptrs, List.zip_cons_cons]
    refine .cons (fun y hy => ?_) (ptrs_pairwise hal' (by omega))
    exact (ptrs_bounds hal' (by omega) y hy).2.1

/-- The bytes at the address of a string are those of the string and a NUL. -/
theorem store_string : ∀ {argv : List (List UInt8)} {sp : ℕ} {f : ℕ → UInt8},
    argSpace argv ≤ sp → ∀ x ∈ argv.zip (ptrs argv sp), ∀ i c, (x.1 ++ [0])[i]? = some c →
    store argv sp f (x.2 + i) = c
  | [], _, _, _ => nofun
  | arg :: argv, sp, f, hfit => by
    rw [argSpace_cons] at hfit
    intro x hx i c hi
    rw [ptrs, List.zip_cons_cons] at hx
    rw [store]
    rcases List.mem_cons.1 hx with rfl | hx
    · rw [store_of_outside (by omega) (.inr (by dsimp only; omega))]
      apply Cells.put_of_mem (by dsimp only; omega)
      rw [Nat.add_sub_cancel_left]
      exact hi
    · exact store_string (by omega) x hx i c hi

/-! ## Copying the strings -/

theorem u64_sub {sp : ℕ} {n : ℤ} (h0 : 0 ≤ n) (hn : n ≤ sp) (hsp : sp ≤ trapframeVa) :
    (u64 (sp - n) : ℤ) = sp - n := by
  unfold trapframeVa trampolineVa maxva pgsize at hsp
  unfold u64
  omega

theorem push_eq {n : ℕ} (hal : sp % 16 = 0) (hn : n ≤ sp) (hsp : sp ≤ trapframeVa) :
    u64 ((sp : ℤ) - n) - u64 ((sp : ℤ) - n) % 16 = sp - up16 n := by
  have := u64_sub (n := n) (by omega) (by omega) hsp
  unfold up16
  omega

/-- What is pushed above the stack base lies in the one page of the stack. -/
theorem in_stack {m n : ℕ} (hn : 0 < n) (hle : up16 n ≤ sp - (m + 1) * pgsize)
    (hlo : (m + 1) * pgsize ≤ sp) (hhi : sp ≤ (m + 2) * pgsize) :
    (sp - up16 n) / pgsize = m + 1 ∧ (sp - up16 n) % pgsize + n ≤ pgsize := by
  unfold up16 pgsize at *
  omega

/-- The page of the stack can be written. -/
structure Stackpage (m r : ℕ) (e : Pte) (s : St T) : Prop where
  pte : (s.tbl r).pte (m + 1) = some e
  user : e.perm.u = true
  write : e.perm.w = true

/-- Only the page of the stack was written to. -/
structure Pushed (e : Pte) (s s' : St T) : Prop extends MemOnly s s' where
  mem : ∀ pa ≠ e.pa, s'.mem pa = s.mem pa

theorem Pushed.refl (e : Pte) (s : St T) : Pushed e s s := ⟨.refl s, fun _ _ => rfl⟩

theorem Pushed.trans {s'' : St T} (h : Pushed e s s') (h' : Pushed e s' s'') : Pushed e s s'' :=
  ⟨h.toMemOnly.trans h'.toMemOnly, fun pa hpa => (h'.mem pa hpa).trans (h.mem pa hpa)⟩

/-- One `copyout` to the stack. -/
theorem Image.Building.push {m n : ℕ} (src : List UInt8) (hf : FreeOk L s₀)
    (h : Building L p r sz s₀ s) (hst : Stackpage m r e s) (hsz : sz = (m + 2) * pgsize)
    (hn : src.length = n) (h0 : 0 < n) (hle : up16 n ≤ sp - (m + 1) * pgsize)
    (hlo : (m + 1) * pgsize ≤ sp) (hhi : sp ≤ sz) :
    Tot (copyout L p r (sp - up16 n) src) s fun ok s' => ok ∧ Pushed e s s' ∧
      (umem s' (Image.as p r sz)).byte =
        Cells.put (umem s (Image.as p r sz)).byte (sp - up16 n) src := by
  obtain ⟨hpage, hfit⟩ := in_stack h0 hle hlo (hsz ▸ hhi)
  have hsp := h.addrSpace hf
  have hlt : m + 1 < npages sz := by rw [hsz, npages_mul]; omega
  have he : (s.tbl r).pte ((sp - up16 n) / pgsize) = some e := by rw [hpage, hst.pte]
  have hne : src ≠ [] := by
    rintro rfl
    rw [List.length_nil] at hn
    omega
  apply tot_mono (copyout_page h.ok hne (hn ▸ hfit) he hst.user hst.write
    (hsp.pa_ne_zero (p := Image.as p r sz) hlt hst.pte))
  rintro ok s' ⟨rfl, rfl⟩
  refine ⟨rfl, ⟨memOnly_setMem s e.pa _, fun pa hpa => update_of_ne hpa _ _⟩, ?_⟩
  exact congrArg UMem.byte (umem_setMem hsp (by rw [hpage]; exact hlt) he (hn ▸ hfit))

theorem execArgs_exact {m : ℕ} (hf : FreeOk L s₀) (hsz : sz = (m + 2) * pgsize) :
    ∀ (argv : List (List UInt8)) {sp : ℕ} {ustack : List ℕ} {s : St T},
    (∀ arg ∈ argv, arg.length < pgsize) → sp % 16 = 0 → (m + 1) * pgsize ≤ sp → sp ≤ sz →
    ustack.length ≤ maxArg → Building L p r sz s₀ s → Stackpage m r e s →
    Tot (execArgs L p r ((m + 1) * pgsize) argv sp ustack) s fun o s' => Pushed e s s' ∧
      if argSpace argv ≤ sp - (m + 1) * pgsize ∧ ustack.length + argv.length ≤ maxArg then
        o = some (sp - argSpace argv, ustack ++ ptrs argv sp) ∧
          (umem s' (Image.as p r sz)).byte = store argv sp (umem s (Image.as p r sz)).byte
      else o = none := by
  intro argv
  induction argv with
  | nil =>
    intro sp ustack s _ _ _ _ hlen _ _
    refine tot_pure ⟨.refl e s, ?_⟩
    rw [if_pos ⟨Nat.zero_le _, hlen⟩]
    exact ⟨by rw [ptrs, List.append_nil]; rfl, rfl⟩
  | cons arg argv ih =>
    intro sp ustack s hargs hal hlo hhi hlen h hst
    have harg := hargs arg List.mem_cons_self
    have hle : sz ≤ trapframeVa := h.proc_ok.sz_le
    have hpush : u64 ((sp : ℤ) - (arg.length + 1)) - u64 ((sp : ℤ) - (arg.length + 1)) % 16 =
        sp - up16 (arg.length + 1) := by
      have := push_eq (n := arg.length + 1) hal (by unfold pgsize at *; omega) (by omega)
      push_cast at this
      exact this
    unfold execArgs
    dsimp only
    rw [hpush, argSpace_cons, List.length_cons]
    by_cases hmax : ustack.length ≥ maxArg
    · rw [if_pos hmax]
      refine tot_pure ⟨.refl e s, ?_⟩
      rw [if_neg (by omega)]
    by_cases hlt : sp - up16 (arg.length + 1) < (m + 1) * pgsize
    · rw [if_neg hmax, if_pos hlt]
      refine tot_pure ⟨.refl e s, ?_⟩
      rw [if_neg (by unfold pgsize at *; unfold up16 at *; omega)]
    rw [if_neg hmax, if_neg hlt]
    have hup : up16 (arg.length + 1) ≤ sp - (m + 1) * pgsize := by
      unfold pgsize up16 at *
      omega
    apply tot_bind
    apply tot_mono (h.push (arg ++ [0]) hf hst hsz (by rw [List.length_append, List.length_singleton])
      (by omega) hup hlo hhi)
    rintro ok s1 ⟨rfl, hp1, hbyte⟩
    rw [if_pos rfl]
    have hal' : (sp - up16 (arg.length + 1)) % 16 = 0 := by
      unfold up16 at *
      omega
    apply tot_mono (ih (fun a ha => hargs a (List.mem_cons_of_mem _ ha)) hal' (by omega) (by omega)
      (by rw [List.length_append, List.length_singleton]; omega) (h.memOnly hp1.toMemOnly)
      ⟨by rw [hp1.tbl, hst.pte], hst.user, hst.write⟩)
    rintro o s2 ⟨hp2, hres⟩
    refine ⟨hp1.trans hp2, ?_⟩
    rw [List.length_append, List.length_singleton, hbyte] at hres
    by_cases hfit : argSpace argv ≤ sp - up16 (arg.length + 1) - (m + 1) * pgsize ∧
        ustack.length + 1 + argv.length ≤ maxArg
    · rw [if_pos hfit] at hres
      rw [if_pos (by omega), hres.1, hres.2, ptrs, List.append_assoc, List.singleton_append,
        Nat.sub_sub]
      exact ⟨rfl, rfl⟩
    · rw [if_neg hfit] at hres
      rw [if_neg (by omega)]
      exact hres

theorem length_uint64Bytes (l : List ℕ) : (uint64Bytes l).length = 8 * l.length := by
  induction l with
  | nil => rfl
  | cons x l ih =>
    unfold uint64Bytes at *
    rw [List.flatMap_cons, List.length_append, ih, List.length_map, List.length_range,
      List.length_cons]
    ring

/-! ## The guard page -/

theorem npages_pgroundup (h : sz ≤ trapframeVa) : npages (pgroundup sz) = npages sz := by
  rw [pgroundup_eq h, npages_mul]

theorem Image.Building.roundup (h : Building L p r sz s₀ s) : Building L p r (pgroundup sz) s₀ s := by
  have hsz : sz ≤ trapframeVa := h.proc_ok.sz_le
  have hn := npages_pgroundup hsz
  refine ⟨h.toFrame, h.new, h.ok, h.bag, ?_, ?_⟩
  · apply procOk_of_high
    · show pgroundup sz ≤ trapframeVa
      rw [pgroundup_eq hsz, trapframeVa_eq]
      exact Nat.mul_le_mul_right _ (npages_le hsz)
    · exact fun v hv => h.proc_ok.high h.ok v hv
    · intro v hv hv'
      have hv0 : npages (pgroundup sz) ≤ v := hv
      exact h.proc_ok.none v (by rw [hn] at hv0; exact hv0) hv'
  · rw [hn]
    exact h.full

theorem Image.Building.uvmclear (hf : FreeOk L s₀) (h : Building L p r sz s₀ s) (hv : v < npages sz) :
    Tot (uvmclear r (v * pgsize)) s fun _ s' => Building L p r sz s₀ s' ∧
      (∀ k ≠ v, (s'.tbl r).pte k = (s.tbl r).pte k) ∧
      (∃ e, (s'.tbl r).pte v = some e ∧ e.perm.u = false) ∧ s'.mem = s.mem ∧
      (umem s' (Image.as p r sz)).byte = (umem s (Image.as p r sz)).byte := by
  have hup : npages sz ≤ userPages := npages_le h.proc_ok.sz_le
  obtain ⟨e, he⟩ := Option.isSome_iff_exists.1 (h.full v hv)
  apply tot_mono (uvmclear_tot (h.space hf) (by omega) he)
  rintro _ s' ⟨hk, hpte, hmem⟩
  have hother : ∀ k ≠ v, (s'.tbl r).pte k = (s.tbl r).pte k := by
    intro k hne
    rw [hpte, update_of_ne hne]
  have hself : (s'.tbl r).pte v = some { e with perm := { e.perm with u := false } } := by
    rw [hpte, update_self]
  refine ⟨⟨h.toFrame.trans hk.toFrame, h.new, hk.ok, hk.bag.trans h.bag, ?_, ?_⟩, hother,
    ⟨_, hself, rfl⟩, hmem, ?_⟩
  · apply procOk_of_high h.proc_ok.sz_le
    · intro k hk'
      rw [hother k (by omega)]
      exact h.proc_ok.high h.ok k hk'
    · intro k hk' hk''
      have : npages sz ≤ k := hk'
      rw [hother k (by omega)]
      exact h.proc_ok.none k hk' hk''
  · intro k hk'
    rw [hpte]
    exact isSome_update _ (h.full k hk')
  · funext a
    unfold umem
    dsimp only
    rw [hmem]
    by_cases ha : a / pgsize = v
    · rw [ha, hself, he]
      rfl
    · rw [hother _ ha]

/-! ## The whole stack -/

theorem execStack_size (hsz : sz ≤ trapframeVa) :
    u64 (pgroundup sz + (userStack + 1) * pgsize) = (npages sz + 2) * pgsize := by
  have hle := npages_le hsz
  have : ((pgroundup sz : ℕ) + ((userStack : ℕ) + 1) * (pgsize : ℕ) : ℤ) =
      (((npages sz + 2) * pgsize : ℕ) : ℤ) := by
    rw [pgroundup_eq hsz]
    unfold userStack
    push_cast
    ring
  rw [this]
  apply u64_of_lt
  unfold userPages at hle
  unfold pgsize
  omega

/-- There are not enough free pages for the stack and its guard. -/
def NoRoom (L : Layout) (r sz : ℕ) (s : St T) : Prop :=
  ∃ s', uvmalloc L r (pgroundup sz) (u64 (pgroundup sz + (userStack + 1) * pgsize)) { w := true } s =
    .ok (0, s')

/-- The image has a stack with the arguments on it. -/
structure Stacked (L : Layout) (p : Proc) (argv : List (List UInt8)) (r sz sz1 sp : ℕ)
    (s₀ s s' : St T) : Prop where
  size : sz1 = (npages sz + 2) * pgsize
  sp_eq : sp = sz1 - blockSize argv
  fits : Fits argv
  building : Building L p r sz1 s₀ s'
  unwritten : Unwritten s₀ s → Unwritten s₀ s'
  low : ∀ v < npages sz, (s'.tbl r).pte v = (s.tbl r).pte v
  guard : ∃ e, (s'.tbl r).pte (npages sz) = some e ∧ e.perm.u = false
  stack : ∃ e, Stackpage (npages sz) r e s'
  byte : (umem s' (Image.as p r sz1)).byte =
    Cells.put (store argv sz1 (umem s (Image.as p r sz)).byte) sp (uint64Bytes (ptrs argv sz1 ++ [0]))

/-- What `execStack` returns and leaves. -/
def Outcome (L : Layout) (p : Proc) (argv : List (List UInt8)) (r sz : ℕ) (s₀ s : St T)
    (o : Option (ℕ × ℕ)) (s' : St T) : Prop :=
  (o = none → Restored s₀ s' ∧ (Unwritten s₀ s → Unwritten s₀ s') ∧ (NoRoom L r sz s ∨ ¬Fits argv)) ∧
    ∀ sz1 sp, o = some (sz1, sp) → ¬NoRoom L r sz s ∧ Stacked L p argv r sz sz1 sp s₀ s s'

/-- On an error the image is freed. -/
theorem Image.Building.bad {sz' : ℕ} (hf : FreeOk L s₀) (h : Building L p r sz' s₀ s')
    (hu : Unwritten s₀ s → Unwritten s₀ s') (hwhy : NoRoom L r sz s ∨ ¬Fits argv) :
    Tot (do
      procFreepagetable L r sz'
      return none : K T (Option (ℕ × ℕ))) s' (Outcome L p argv r sz s₀ s) := by
  apply tot_bind
  apply tot_mono (h.free hf)
  rintro _ s1 ⟨hr, hu'⟩
  exact tot_pure ⟨fun _ => ⟨hr, fun h0 => hu' (hu h0), hwhy⟩, nofun⟩

theorem execStack_exact (hf : FreeOk L s₀) (h : Building L p r sz s₀ s)
    (hargv : ∀ arg ∈ argv, arg.length < pgsize) :
    Tot (execStack L p r sz argv) s (Outcome L p argv r sz s₀ s) := by
  have hsz : sz ≤ trapframeVa := h.proc_ok.sz_le
  have hround : pgroundup sz = npages sz * pgsize := pgroundup_eq hsz
  have hle := npages_le hsz
  have hnew := execStack_size hsz
  unfold execStack
  dsimp only
  obtain ⟨sz1, s3, he3, hz, hnz, hu3⟩ := h.roundup.uvmalloc hf
    (u64 (pgroundup sz + (userStack + 1) * pgsize)) { w := true }
  apply tot_bind_eq he3
  by_cases h0 : sz1 = 0
  · rw [if_pos h0]
    exact (hz h0).1.bad hf hu3 (.inl ⟨s3, h0 ▸ he3⟩)
  rw [if_neg h0]
  have hroom : ¬NoRoom L r sz s := by
    rintro ⟨s', he'⟩
    exact h0 (Prod.mk.inj (Except.ok.inj (he3.symm.trans he'))).1
  obtain ⟨hmax, hb3, hfill, hbyte3⟩ := hnz h0
  have hsz1 : sz1 = (npages sz + 2) * pgsize := by
    rw [hnew, hround] at hmax
    rw [hmax]
    apply max_eq_right
    exact Nat.mul_le_mul_right _ (by omega)
  have hguard : sz1 - (userStack + 1) * pgsize = npages sz * pgsize := by
    rw [hsz1]
    unfold userStack pgsize
    omega
  have hbase : sz1 - userStack * pgsize = (npages sz + 1) * pgsize := by
    rw [hsz1]
    unfold userStack pgsize
    omega
  have hpages : npages sz1 = npages sz + 2 := by rw [hsz1, npages_mul]
  have hal : sz1 % 16 = 0 := by
    rw [hsz1]
    unfold pgsize
    omega
  have hle1 : sz1 ≤ trapframeVa := hb3.proc_ok.sz_le
  rw [npages_pgroundup hsz] at hfill
  obtain ⟨pa, hpa⟩ := hfill.new (npages sz + 1) (by omega) (by rw [hpages]; omega)
  rw [hguard, hbase]
  apply tot_bind
  apply tot_mono (hb3.uvmclear hf (by rw [hpages]; omega))
  rintro _ s4 ⟨hb4, hother, hg4, hmem4, hbyte4⟩
  have hst : Stackpage (npages sz) r ⟨{ w := true, r := true, u := true }, pa⟩ s4 :=
    ⟨by rw [hother _ (by omega), hpa], rfl, rfl⟩
  have hu4 : Unwritten s₀ s → Unwritten s₀ s4 := fun h0 a ha => by rw [hmem4, hu3 h0 a ha]
  apply tot_bind
  apply tot_mono (execArgs_exact hf hsz1 argv hargv hal
    (by rw [hsz1]; exact Nat.mul_le_mul_right _ (by omega)) le_rfl (Nat.zero_le _) hb4 hst)
  rintro o s5 ⟨hp5, hres⟩
  -- the stack page was free
  have hpushed : ∀ {s'}, Pushed ⟨{ w := true, r := true, u := true }, pa⟩ s4 s' →
      Unwritten s₀ s → Unwritten s₀ s' := by
    intro s' hp h0 a ha
    have hne : a ≠ pa := by
      rintro rfl
      exact ha (hb4.page_free (by rw [hpages]; omega) hst.pte)
    rw [hp.mem a hne, hu4 h0 a ha]
  have hb5 := hb4.memOnly hp5.toMemOnly
  have hstack : sz1 - (npages sz + 1) * pgsize = userStack * pgsize := by
    rw [hsz1]
    unfold userStack pgsize
    omega
  rw [List.length_nil, Nat.zero_add, hstack] at hres
  by_cases hfit : argSpace argv ≤ userStack * pgsize ∧ argv.length ≤ maxArg
  swap
  · rw [if_neg hfit] at hres
    rw [hres]
    refine hb5.bad hf (hpushed hp5) (.inr fun hc => hfit ⟨?_, hc.2⟩)
    exact le_trans (Nat.le_add_right _ _) hc.1
  rw [if_pos hfit] at hres
  obtain ⟨rfl, hbyte5⟩ := hres
  dsimp only
  rw [List.nil_append, length_ptrs]
  have hmod := argSpace_mod argv
  have hsp : (sz1 - argSpace argv) % 16 = 0 := by omega
  have hlo : (npages sz + 1) * pgsize ≤ sz1 - argSpace argv := by omega
  have hpush : u64 (((sz1 - argSpace argv : ℕ) : ℤ) - (argv.length + 1) * 8) -
      u64 (((sz1 - argSpace argv : ℕ) : ℤ) - (argv.length + 1) * 8) % 16 =
      sz1 - argSpace argv - up16 ((argv.length + 1) * 8) := by
    have := push_eq (n := (argv.length + 1) * 8) hsp
      (by have := hfit.2; unfold maxArg at this; unfold pgsize at hlo; omega) (by omega)
    push_cast at this
    exact this
  rw [hpush]
  by_cases hblock : blockSize argv ≤ userStack * pgsize
  swap
  · have hpos : 0 < (npages sz + 1) * pgsize := Nat.mul_pos (by omega) (by decide)
    rw [if_pos (by unfold blockSize at hblock; omega)]
    exact hb5.bad hf (hpushed hp5) (.inr fun hc => hblock hc.1)
  unfold blockSize at hblock
  rw [if_neg (by omega)]
  apply tot_bind
  apply tot_mono (hb5.push (n := (argv.length + 1) * 8) (uint64Bytes (ptrs argv sz1 ++ [0])) hf ⟨by rw [hp5.tbl, hst.pte], rfl, rfl⟩ hsz1
    (by rw [length_uint64Bytes, List.length_append, length_ptrs, List.length_singleton]; ring)
    (by omega) (by omega) hlo (by omega))
  rintro ok s6 ⟨rfl, hp6, hbyte6⟩
  rw [if_pos rfl]
  have hp := hp5.trans hp6
  refine tot_pure ⟨nofun, ?_⟩
  rintro _ _ ⟨⟩
  refine ⟨hroom, hsz1, ?_, ⟨hblock, hfit.2⟩, hb4.memOnly hp.toMemOnly, hpushed hp, ?_, ?_,
    ⟨_, by rw [hp.tbl, hst.pte], rfl, rfl⟩, ?_⟩
  · unfold blockSize
    omega
  · intro v hv
    rw [hp.tbl, hother v (by omega), hfill.old v (by omega)]
  · rw [hp.tbl]
    exact hg4
  · rw [hbyte6, hbyte5, hbyte4, hbyte3]
    unfold umem
    dsimp only
    rw [npages_pgroundup hsz]

theorem Stacked.byte_low {sz1 a : ℕ}
    (h : Stacked L p argv r sz sz1 sp s₀ s s') (ha : a < (npages sz + 1) * pgsize) :
    (umem s' (Image.as p r sz1)).byte a = (umem s (Image.as p r sz)).byte a := by
  have hsz := h.size
  have hsp := h.sp_eq
  have hfit := h.fits.1
  have hbase : (npages sz + 2) * pgsize = (npages sz + 1) * pgsize + userStack * pgsize := by
    unfold userStack
    ring
  have hle : argSpace argv ≤ blockSize argv := Nat.le_add_right _ _
  rw [h.byte, Cells.put_of_lt (by omega), store_of_outside (by omega) (.inl (by omega))]

end Xv6.Vm
