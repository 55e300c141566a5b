import Xv6.Vm.Lazy

/-!
# The contract of `sbrk`

What one call of `sys_sbrk` does to the size, the mappings and the bytes of a process, and what any
sequence of calls adds up to. Between two calls other processes may run and pages may be faulted in,
so that every call may find any number of free pages.
-/

namespace Xv6.Vm

open Function

variable {T : Type} [DecidableEq T] {L : Layout} {s s' s₀ : St T} {t : T} {p p' : Proc} {n mode : ℤ}
  {a x : ℕ}

def Proc.resize (p : Proc) (n : ℤ) : Proc := { p with sz := ((p.sz : ℤ) + n).toNat }

theorem resize_sz (p : Proc) (n : ℤ) : (p.resize n).sz = ((p.sz : ℤ) + n).toNat := rfl

/-! ## One call -/

/-- The processes, the mappings of `p` and the bytes of its pages are as before. -/
structure Unchanged (p : Proc) (s s' : St T) : Prop where
  proc : s'.proc = s.proc
  pte : (s'.tbl p.pagetable).pte = (s.tbl p.pagetable).pte
  mem : ∀ v < userPages, ∀ e, (s.tbl p.pagetable).pte v = some e → s'.mem e.pa = s.mem e.pa

/-- `p` became the smaller `p'`: exactly its pages above the new size are unmapped and freed. -/
structure Shrunk (t : T) (p p' : Proc) (s s' : St T) : Prop where
  proc : s'.proc = update s.proc t (some p')
  pte : (s'.tbl p.pagetable).pte = clear (s.tbl p.pagetable).pte (npages p'.sz) userPages
  free : ∃ l, s'.free = l ++ s.free ∧
    ∀ pa, pa ∈ l ↔ (s.tbl p.pagetable).Maps (npages p'.sz) userPages pa
  mem : ∀ v < npages p'.sz, ∀ e, (s.tbl p.pagetable).pte v = some e → s'.mem e.pa = s.mem e.pa

/-- `p` became the larger `p'`: exactly the pages between the sizes are new, on zeroed pages that
were free. -/
structure Enlarged (t : T) (p p' : Proc) (s s' : St T) : Prop where
  proc : s'.proc = update s.proc t (some p')
  new : ∀ v, npages p.sz ≤ v → v < npages p'.sz → ∃ pa ∈ s.free,
    (s'.tbl p.pagetable).pte v = some ⟨{ r := true, w := true, u := true }, pa⟩ ∧
      s'.mem pa = fun _ => 0
  old : ∀ v, ¬(npages p.sz ≤ v ∧ v < npages p'.sz) →
    (s'.tbl p.pagetable).pte v = (s.tbl p.pagetable).pte v
  mem : ∀ v < npages p.sz, ∀ e, (s.tbl p.pagetable).pte v = some e → s'.mem e.pa = s.mem e.pa

/-- What `sys_sbrk(n, mode)` may do and return. -/
inductive Sbrk (t : T) (p : Proc) (n mode : ℤ) (s : St T) : ℕ → St T → Prop
  | failed {s' : St T} : Unchanged p s s' → Sbrk t p n mode s (u64 (-1)) s'
  | below : (p.sz : ℤ) + n < 0 → Sbrk t p n mode s p.sz s
  | shrunk {s' : St T} : n < 0 → 0 ≤ (p.sz : ℤ) + n → Shrunk t p (p.resize n) s s' →
      Sbrk t p n mode s p.sz s'
  | enlarged {s' : St T} : 0 ≤ n → mode = sbrkEager → Enlarged t p (p.resize n) s s' →
      Sbrk t p n mode s p.sz s'
  | deferred : 0 ≤ n → mode ≠ sbrkEager →
      Sbrk t p n mode s p.sz (s.setProc t (some (p.resize n)))

theorem setProc_eq_self (h : s.proc t = some p) : s.setProc t (some p) = s := by
  unfold St.setProc
  rw [← h, update_eq_self]

variable (h : AddrSpace L p s)

include h

theorem AddrSpace.setProc (o : Option Proc) : AddrSpace L p (s.setProc t o) :=
  ⟨⟨h.space.ok, h.space.page, h.space.once⟩, h.proc_ok⟩

/-- A size is never taken for an error. -/
theorem AddrSpace.sz_ne : p.sz ≠ u64 (-1) := by
  have hsz := h.proc_ok.sz_le
  unfold trapframeVa trampolineVa maxva pgsize at hsz
  unfold u64
  omega

omit h in
theorem u64_resize (h0 : 0 ≤ (p.sz : ℤ) + n)
    (hb : (p.sz : ℤ) + n ≤ trapframeVa) : u64 (p.sz + n) = (p.resize n).sz := by
  have := u64_add h0 (by unfold trapframeVa trampolineVa maxva pgsize at hb; omega)
  rw [resize_sz]
  omega

theorem AddrSpace.clear_size (v : ℕ) :
    clear (s.tbl p.pagetable).pte v (npages p.sz) = clear (s.tbl p.pagetable).pte v userPages := by
  have hle := npages_le h.proc_ok.sz_le
  funext k
  unfold clear
  by_cases hk : v ≤ k ∧ k < userPages
  · rw [if_pos hk]
    split_ifs with hlt
    · rfl
    · exact h.proc_ok.none k (by omega) hk.2
  · rw [if_neg hk, if_neg (by omega)]

theorem AddrSpace.maps_size (v pa : ℕ) :
    (s.tbl p.pagetable).Maps v (npages p.sz) pa ↔ (s.tbl p.pagetable).Maps v userPages pa := by
  have hle := npages_le h.proc_ok.sz_le
  constructor
  · rintro ⟨k, e, h1, h2, h3, he⟩
    exact ⟨k, e, h1, h3, h3, he⟩
  · rintro ⟨k, e, h1, h2, h3, he, hpa⟩
    have hlt : k < npages p.sz := by
      have := h.proc_ok.leaf k (by rw [he]; rfl)
      omega
    exact ⟨k, e, h1, hlt, h3, he, hpa⟩

theorem growproc_neg (hp : s.proc t = some p) (hn : n < 0) (hn' : -2 ^ 31 ≤ n) :
    Tot (growproc L t p n) s fun ok s' => ok ∧
      (((p.sz : ℤ) + n < 0 ∧ s' = s) ∨
        (0 ≤ (p.sz : ℤ) + n ∧ Shrunk t p (p.resize n) s s' ∧ AddrSpace L (p.resize n) s')) := by
  have hsz := h.proc_ok.sz_le
  unfold growproc
  rw [if_neg (by omega), if_pos hn]
  by_cases h0 : (p.sz : ℤ) + n < 0
  · have hge : p.sz ≤ u64 (p.sz + n) := by
      unfold trapframeVa trampolineVa maxva pgsize at hsz
      unfold u64
      omega
    have he : uvmdealloc L p.pagetable p.sz (u64 (p.sz + n)) s = .ok (p.sz, s) := by
      unfold uvmdealloc
      rw [if_pos hge]
      rfl
    apply tot_bind_eq he
    apply tot_modify
    exact tot_pure ⟨rfl, .inl ⟨h0, setProc_eq_self hp⟩⟩
  · have hnew := u64_resize (by omega) (by omega : (p.sz : ℤ) + n ≤ trapframeVa)
    have hle : (p.resize n).sz ≤ p.sz := by
      rw [resize_sz]
      omega
    rw [hnew]
    apply tot_bind
    apply tot_mono (uvmdealloc_unmapped h.space hsz)
    rintro sz s1 ⟨hmin, hk, hu⟩
    have hsz' : sz = (p.resize n).sz := by omega
    subst hsz'
    apply tot_modify
    refine tot_pure ⟨rfl, .inr ⟨by omega, ⟨?_, ?_, ?_, ?_⟩, ?_⟩⟩
    · exact congrArg (fun f => update f t _) hk.proc
    · exact hu.pte.trans (h.clear_size _)
    · obtain ⟨l, hl, hmem⟩ := hu.free
      exact ⟨l, hl, fun pa => (hmem pa).trans (h.maps_size _ pa)⟩
    · intro v hv e he
      apply hu.mem
      -- a page that stays is not one of those that go
      rintro ⟨k, f, h1, -, h3, hf, hpa⟩
      have hlt := h.lt_userPages (lt_of_lt_of_le hv (npages_mono hle))
      have := h.space.pa_inj hlt h3 he hf hpa
      omega
    · have hok : AddrSpace L (p.resize n) s1 :=
        ⟨h.space.kept hk, h.proc_ok.shrink h.space.ok hle hu.pte⟩
      exact hok.setProc _

theorem growproc_pos (hn : 0 < n) (hb : (p.sz : ℤ) + n ≤ trapframeVa) :
    Tot (growproc L t p n) s fun ok s' =>
      (ok = false ∧ Unchanged p s s' ∧ AddrSpace L p s') ∨
      (ok ∧ Enlarged t p (p.resize n) s s' ∧ AddrSpace L (p.resize n) s') := by
  have hsz := h.proc_ok.sz_le
  have hnew := u64_resize (by omega) hb
  have hle : p.sz ≤ (p.resize n).sz := by
    rw [resize_sz]
    omega
  have hpos : (p.resize n).sz ≠ 0 := by
    rw [resize_sz]
    omega
  have hbound : (p.resize n).sz ≤ trapframeVa := by
    rw [resize_sz]
    omega
  unfold growproc
  rw [if_pos hn, hnew]
  apply tot_bind
  apply tot_mono (uvmalloc_zeroed h.space hsz h.proc_ok.none (.inl hbound))
  rintro sz s1 ⟨hk, hzero, hsucc, hmem⟩
  have hkeep : ∀ v < userPages, ∀ e, (s.tbl p.pagetable).pte v = some e → s1.mem e.pa = s.mem e.pa :=
    fun v hv e he => hmem _ (h.space.notMem_free hv he)
  by_cases h0 : sz = 0
  · rw [if_pos h0]
    have hpte := hzero h0
    exact tot_pure (.inl ⟨rfl, ⟨hk.proc, hpte, hkeep⟩, h.space.kept hk, h.proc_ok.congr hpte⟩)
  · rw [if_neg h0]
    obtain ⟨hmax, -, hfill, hz⟩ := hsucc h0
    have hsz' : sz = (p.resize n).sz := by omega
    subst hsz'
    apply tot_modify
    refine tot_pure (.inr ⟨rfl, ⟨?_, ?_, hfill.old, ?_⟩, ?_⟩)
    · exact congrArg (fun f => update f t _) hk.proc
    · intro v hv hv'
      obtain ⟨e, he, hfree, h0⟩ := hz.page v hv hv'
      obtain ⟨pa, hpa⟩ := hfill.new v hv hv'
      obtain rfl := Option.some.inj (he.symm.trans hpa)
      exact ⟨pa, hfree, hpa, h0⟩
    · exact fun v hv e he => hkeep v (h.lt_userPages hv) e he
    · have hok : AddrSpace L (p.resize n) s1 :=
        ⟨h.space.kept hk, h.proc_ok.grow h.space.ok hle hbound hfill⟩
      exact hok.setProc _

omit h

theorem sysSbrk_sbrk (mode : ℤ) (h : AddrSpace L p s) (hp : s.proc t = some p) (hn : -2 ^ 31 ≤ n)
    (hb : (p.sz : ℤ) + n ≤ trapframeVa) :
    Tot (sysSbrk L t p n mode) s fun x s' => Sbrk t p n mode s x s' ∧
      ∃ p', s'.proc t = some p' ∧ AddrSpace L p' s' := by
  have hself : p.resize 0 = p := by
    unfold Proc.resize
    rw [add_zero, Int.toNat_natCast]
  have hat : ∀ {f : T → Option Proc}, f = update s.proc t (some (p.resize n)) →
      f t = some (p.resize n) := fun hf => by rw [hf, update_self]
  unfold sysSbrk
  by_cases hmode : mode = sbrkEager ∨ n < 0
  · rw [if_pos hmode]
    apply tot_bind
    rcases lt_trichotomy n 0 with hneg | rfl | hpos
    · apply tot_mono (growproc_neg h hp hneg hn)
      rintro ok s1 ⟨rfl, ⟨h0, rfl⟩ | ⟨h0, hs, hok⟩⟩
      · exact tot_pure ⟨.below h0, p, hp, h⟩
      · exact tot_pure ⟨.shrunk hneg h0 hs, _, hat hs.proc, hok⟩
    · -- the size is stored again, and nothing else happens
      have he : growproc L t p 0 s = .ok (true, s) := by
        show Except.ok (true, s.setProc t (some p)) = _
        rw [setProc_eq_self hp]
      refine tot_of_eq he (tot_pure ⟨.enlarged le_rfl (hmode.resolve_right (lt_irrefl 0)) ?_, p, hp, h⟩)
      rw [hself]
      exact ⟨(update_eq_self_iff.2 hp.symm).symm, fun v h1 h2 => by omega, fun _ _ => rfl,
        fun _ _ _ _ => rfl⟩
    · apply tot_mono (growproc_pos h hpos hb)
      rintro ok s1 (⟨rfl, hu, hok⟩ | ⟨rfl, hs, hok⟩)
      · exact tot_pure ⟨.failed hu, p, by rw [hu.proc, hp], hok⟩
      · exact tot_pure ⟨.enlarged hpos.le (hmode.resolve_right (by omega)) hs, _, hat hs.proc, hok⟩
  · obtain ⟨hm, hpos⟩ := not_or.1 hmode
    have hnew := u64_resize (by omega) hb
    have hle : p.sz ≤ (p.resize n).sz := by
      rw [resize_sz]
      omega
    rw [if_neg hmode, hnew, if_neg (by omega)]
    apply tot_modify
    refine tot_pure ⟨.deferred (by omega) hm, _, update_self .., ?_⟩
    have hbound : (p.resize n).sz ≤ trapframeVa := by
      rw [resize_sz]
      omega
    have hok : AddrSpace L (p.resize n) s := by
      refine ⟨h.space, hbound, h.proc_ok.trampoline, h.proc_ok.trapframe, fun v hv => ?_⟩
      have := npages_mono hle
      rcases h.proc_ok.leaf v hv with hlt | hge
      · exact .inl (by omega)
      · exact .inr hge
    exact hok.setProc _

/-! ## Sizes and bytes -/

/-- The size after a call that returned `x`: a call that fails, or that would make the size
negative, is not accepted. -/
def accept (sz : ℕ) (c : ℤ × ℕ) : ℕ :=
  if c.2 = u64 (-1) ∨ (sz : ℤ) + c.1 < 0 then sz else ((sz : ℤ) + c.1).toNat

/-- The process after a call, and the bytes below both sizes. -/
theorem Sbrk.after (h : AddrSpace L p s) (hp : s.proc t = some p) (hs : Sbrk t p n mode s x s') :
    s'.proc t = some { p with sz := accept p.sz (n, x) } ∧ (x = u64 (-1) ∨ x = p.sz) ∧
    ∀ a < p.sz, a < accept p.sz (n, x) →
      (umem s' { p with sz := accept p.sz (n, x) }).byte a = (umem s p).byte a := by
  have hlt : ∀ {b sz : ℕ}, b < sz → b / pgsize < npages sz := by
    intro b sz hb
    unfold npages pgsize
    omega
  -- it is enough that the page of the byte keeps its entry and its contents
  have hbyte : ∀ {q : Proc}, q.pagetable = p.pagetable → ∀ b < p.sz, b < q.sz →
      (s'.tbl p.pagetable).pte (b / pgsize) = (s.tbl p.pagetable).pte (b / pgsize) →
      (∀ e, (s.tbl p.pagetable).pte (b / pgsize) = some e → s'.mem e.pa = s.mem e.pa) →
      (umem s' q).byte b = (umem s p).byte b := by
    intro q hq b hb hb' hpte hmem
    unfold umem
    dsimp only
    rw [if_pos (hlt hb), if_pos (hlt hb'), hq, hpte]
    cases he : (s.tbl p.pagetable).pte (b / pgsize) with
    | none => rfl
    | some e =>
      dsimp only [Option.elim]
      rw [hmem e he]
  have hacc : 0 ≤ (p.sz : ℤ) + n → { p with sz := accept p.sz (n, p.sz) } = p.resize n := by
    intro h0
    unfold accept Proc.resize
    rw [if_neg]
    exact not_or.2 ⟨h.sz_ne, by dsimp only; omega⟩
  have hid : ∀ {y : ℕ}, y = u64 (-1) ∨ (p.sz : ℤ) + n < 0 → accept p.sz (n, y) = p.sz :=
    fun hy => if_pos hy
  cases hs with
  | failed hu =>
    rw [hid (.inl rfl)]
    refine ⟨by rw [hu.proc, hp], .inl rfl, fun b hb hb' => hbyte rfl b hb hb' (by rw [hu.pte]) ?_⟩
    exact fun e he => hu.mem _ (h.lt_userPages (hlt hb)) e he
  | below h0 =>
    rw [hid (.inr h0)]
    exact ⟨hp, .inr rfl, fun _ _ _ => rfl⟩
  | shrunk hn h0 hs =>
    have hsz : accept p.sz (n, p.sz) = (p.resize n).sz := congrArg Proc.sz (hacc h0)
    rw [hacc h0, hsz]
    refine ⟨by rw [hs.proc, update_self], .inr rfl, fun b hb hb' => hbyte (q := p.resize n) rfl b hb hb' ?_ ?_⟩
    · rw [hs.pte]
      exact if_neg fun hc => absurd (hlt hb') (by omega)
    · exact fun e he => hs.mem _ (hlt hb') e he
  | enlarged hn hm hs =>
    rw [hacc (by omega), show accept p.sz (n, p.sz) = (p.resize n).sz from
      congrArg Proc.sz (hacc (by omega))]
    refine ⟨by rw [hs.proc, update_self], .inr rfl, fun b hb hb' => hbyte (q := p.resize n) rfl b hb hb' ?_ ?_⟩
    · exact hs.old _ fun hc => absurd (hlt hb) (by omega)
    · exact fun e he => hs.mem _ (hlt hb) e he
  | deferred hn hm =>
    rw [hacc (by omega), show accept p.sz (n, p.sz) = (p.resize n).sz from
      congrArg Proc.sz (hacc (by omega))]
    exact ⟨update_self .., .inr rfl, fun b hb hb' => hbyte (q := p.resize n) rfl b hb hb' rfl fun _ _ => rfl⟩

/-! ## Sequences of calls -/

/-- Runs from `s₀` in which the process in slot `t` calls `sbrk`, with the increments and results of
its calls. In between, other processes and page faults may change anything but what the process
sees of its memory. -/
inductive Calls (L : Layout) (t : T) (s₀ : St T) : List (ℤ × ℕ) → St T → Prop
  | refl : Calls L t s₀ [] s₀
  | call {l : List (ℤ × ℕ)} {s s' : St T} {p : Proc} {n mode : ℤ} {x : ℕ} : Calls L t s₀ l s →
      s.proc t = some p → -2 ^ 31 ≤ n → n < 2 ^ 31 → (p.sz : ℤ) + n ≤ trapframeVa →
      sysSbrk L t p n mode s = .ok (x, s') → Calls L t s₀ (l ++ [(n, x)]) s'
  | other {l : List (ℤ × ℕ)} {s s' : St T} {p : Proc} : Calls L t s₀ l s → s.proc t = some p →
      s'.proc t = some p → AddrSpace L p s' → umem s' p = umem s p → Calls L t s₀ l s'

/-- The running sum of the accepted increments is the size, every call returns what the sum was
before it or -1, and the bytes that were below the size all the time are as before. -/
structure Summed (L : Layout) (t : T) (p : Proc) (s₀ : St T) (l : List (ℤ × ℕ)) (s : St T) :
    Prop where
  proc : s.proc t = some { p with sz := l.foldl accept p.sz }
  space : AddrSpace L { p with sz := l.foldl accept p.sz } s
  result : ∀ l₁ c l₂, l = l₁ ++ c :: l₂ → c.2 = u64 (-1) ∨ c.2 = l₁.foldl accept p.sz
  byte : ∀ a, (∀ l₁ l₂, l = l₁ ++ l₂ → a < l₁.foldl accept p.sz) →
    (umem s { p with sz := l.foldl accept p.sz }).byte a = (umem s₀ p).byte a

theorem Calls.summed {l : List (ℤ × ℕ)} (h : AddrSpace L p s₀) (hp : s₀.proc t = some p)
    (hc : Calls L t s₀ l s) : Summed L t p s₀ l s := by
  induction hc with
  | refl => exact ⟨hp, h, fun l₁ c l₂ hl => by simp at hl, fun _ _ => rfl⟩
  | @call l s s' q n mode x _ hq hn hn' hb he ih =>
    obtain rfl := Option.some.inj (ih.proc.symm.trans hq)
    obtain ⟨y, s1, hy, hs, q', hq', hok⟩ := sysSbrk_sbrk mode ih.space ih.proc hn hb
    obtain ⟨rfl, rfl⟩ := Prod.mk.inj (Except.ok.inj (hy.symm.trans he))
    obtain ⟨hproc, hres, hbyte⟩ := hs.after ih.space ih.proc
    have hfold : (l ++ [(n, y)]).foldl accept p.sz = accept (l.foldl accept p.sz) (n, y) := by
      rw [List.foldl_append]
      rfl
    obtain rfl := Option.some.inj (hq'.symm.trans hproc)
    refine ⟨by rw [hfold]; exact hproc, by rw [hfold]; exact hok, fun l₁ c l₂ hl => ?_, fun a ha => ?_⟩
    · rcases List.eq_nil_or_concat l₂ with rfl | ⟨l₃, d, rfl⟩
      · obtain ⟨rfl, hc⟩ := List.append_inj' hl rfl
        obtain rfl := List.singleton_inj.1 hc
        exact hres
      · rw [List.concat_eq_append, ← List.cons_append, ← List.append_assoc] at hl
        exact ih.result l₁ c l₃ (List.append_inj' hl rfl).1
    · have hl : a < l.foldl accept p.sz := ha l [(n, y)] rfl
      have hl' : a < accept (l.foldl accept p.sz) (n, y) := by
        rw [← hfold]
        exact ha _ [] (List.append_nil _).symm
      rw [hfold, hbyte a hl hl']
      apply ih.byte
      intro l₁ l₂ hl₂
      exact ha l₁ (l₂ ++ [(n, y)]) (by rw [hl₂, List.append_assoc])
  | other _ hq hq' hok hum ih =>
    obtain rfl := Option.some.inj (ih.proc.symm.trans hq)
    exact ⟨hq', hok, ih.result, fun a ha => by rw [hum]; exact ih.byte a ha⟩

/-- **The contract of `sbrk`**: for a process whose size is at most `TRAPFRAME`, every call that
stays below `TRAPFRAME`, in both modes and with any number of free pages, and any sequence of such
calls. -/
theorem sbrk_contract (L : Layout) (t : T) (p : Proc) (s : St T) (h : AddrSpace L p s)
    (hp : s.proc t = some p) :
    (∀ n mode : ℤ, -2 ^ 31 ≤ n → n < 2 ^ 31 → (p.sz : ℤ) + n ≤ trapframeVa →
      Tot (sysSbrk L t p n mode) s fun x s' => Sbrk t p n mode s x s' ∧
        s'.proc t = some { p with sz := accept p.sz (n, x) } ∧
        ∀ a < p.sz, a < accept p.sz (n, x) →
          (umem s' { p with sz := accept p.sz (n, x) }).byte a = (umem s p).byte a) ∧
    ∀ l s', Calls L t s l s' → Summed L t p s l s' := by
  refine ⟨fun n mode hn _ hb => ?_, fun l s' hc => hc.summed h hp⟩
  apply tot_mono (sysSbrk_sbrk mode h hp hn hb)
  rintro x s' ⟨hs, -⟩
  obtain ⟨hproc, -, hbyte⟩ := hs.after h hp
  exact ⟨hs, hproc, hbyte⟩

/-- A process with one byte grows by a page at once. -/
theorem sbrk_contract_one : ∃ (s : St (Fin 64)) (p : Proc), AddrSpace someLayout p s ∧
    s.proc 0 = some p ∧ p.sz = 1 ∧
    Tot (sysSbrk someLayout 0 p 4096 sbrkEager) s fun x s' => Sbrk 0 p 4096 sbrkEager s x s' := by
  obtain ⟨s, p, hr, hp, hsz, -, -⟩ := exists_sbrk 1 (by norm_num)
  have hi : Inv someLayout somePages s := reach_inv (by decide) (by decide) hr
  have h : AddrSpace someLayout p s := ⟨hi.space hp, (hi.ok 0 p hp).2⟩
  refine ⟨s, p, h, hp, hsz, ?_⟩
  apply tot_mono ((sbrk_contract someLayout 0 p s h hp).1 4096 sbrkEager (by norm_num) (by norm_num)
    (by rw [hsz]; decide))
  exact fun _ _ hs => hs.1

end Xv6.Vm
