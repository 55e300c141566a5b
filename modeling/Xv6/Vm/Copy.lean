import Xv6.Vm.Fault

/-!
# Copying between the kernel and user memory

Exactly when `copyout`, `copyin` and `copyinstr` succeed, and what they do, byte by byte. A range may
have any length; one that wraps around has a page that is not below `MAXVA`. A copy that fails has
copied the bytes before a page that cannot be accessed, or memory is exhausted.
-/

namespace Xv6.Vm

open Finset

variable {T : Type} [DecidableEq T] {L : Layout} {s s' s'' : St T} {va len n v pa : ℕ} {t t' : Tbl}
  {e : Pte} {p : Proc} {w : Bool} {sz f f' : ℕ}

/-! ## Chunks -/

theorem sub_pgrounddown (a : ℕ) : a - pgrounddown a = a % pgsize := by
  unfold pgrounddown
  have := Nat.div_add_mod a pgsize
  rw [Nat.mul_comm] at this
  omega

theorem next_page {L : Layout} (h : AddrSpace L p s) (hv : va / pgsize < npages p.sz) :
    u64 (pgrounddown va + pgsize) = (va / pgsize + 1) * pgsize := by
  have hlt := h.lt_userPages hv
  have : ((pgrounddown va : ℕ) + (pgsize : ℕ) : ℤ) = (((va / pgsize + 1) * pgsize : ℕ) : ℤ) := by
    unfold pgrounddown
    push_cast
    ring
  rw [this]
  apply u64_of_lt
  unfold userPages at hlt
  unfold pgsize at *
  omega

theorem div_in_page {i : ℕ} (h : i < pgsize - va % pgsize) : (va + i) / pgsize = va / pgsize := by
  unfold pgsize at *
  omega

theorem mod_in_page {i : ℕ} (h : i < pgsize - va % pgsize) :
    (va + i) % pgsize = va % pgsize + i := by
  unfold pgsize at *
  omega

/-- After a first chunk that ends before the range does, the next one starts at the next page. -/
theorem chunk_end {n len : ℕ} (hn : n = min (pgsize - va % pgsize) len) (h : len - n ≠ 0) :
    va + n = (va / pgsize + 1) * pgsize := by
  unfold pgsize at *
  omega

theorem copyinLoop_succ (fuel srcva len : ℕ) (dst : List UInt8) :
    (copyinLoop L p p.pagetable (fuel + 1) srcva (len + 1) dst : K T _) = (do
      let pa0 ← faultIn L p p.pagetable (srcva / pgsize * pgsize)
      if pa0 = 0 then return (false, dst)
      else
        let s ← get
        copyinLoop L p p.pagetable fuel (u64 (pgrounddown srcva + pgsize))
          (len + 1 - min (pgsize - srcva % pgsize) (len + 1))
          (dst ++ getBytes (s.mem pa0) (srcva % pgsize)
            (min (pgsize - srcva % pgsize) (len + 1)))) := by
  rw [← sub_pgrounddown]
  rfl

theorem copyoutLoop_cons (fuel dstva : ℕ) (c : UInt8) (src : List UInt8) :
    (copyoutLoop L p p.pagetable (fuel + 1) dstva (c :: src) : K T Bool) = (do
      if pgrounddown dstva ≥ maxva then return false
      else
        let pa0 ← faultIn L p p.pagetable (dstva / pgsize * pgsize)
        if pa0 = 0 then return false
        else
          if ← walk p.pagetable (pgrounddown dstva) false then
            let s ← get
            match (s.tbl p.pagetable).pte (pgrounddown dstva / pgsize) with
            | none => return false
            | some e =>
              if e.perm.w then
                modify fun s => s.setMem pa0 (putBytes (s.mem pa0) (dstva % pgsize)
                  ((c :: src).take (min (pgsize - dstva % pgsize) (c :: src).length)))
                copyoutLoop L p p.pagetable fuel (u64 (pgrounddown dstva + pgsize))
                  ((c :: src).drop (min (pgsize - dstva % pgsize) (c :: src).length))
              else return false
          else kpanic "kerneltrap") := by
  rw [← sub_pgrounddown]
  rfl

theorem takeStr_eq (l : List UInt8) :
    takeStr l = ((Cells.upTo (· == 0) l).2, (Cells.upTo (· == 0) l).1) := by
  induction l with
  | nil => rfl
  | cons c l ih =>
    unfold takeStr Cells.upTo
    by_cases hc : c = 0
    · subst hc
      rfl
    · rw [if_neg hc, if_neg (by simpa using hc), ih]

theorem copyinstrLoop_succ (r fuel srcva max : ℕ) (dst : List UInt8) :
    (copyinstrLoop r (fuel + 1) srcva (max + 1) dst : K T _) = (do
      let pa0 ← walkaddr r (pgrounddown srcva)
      if pa0 = 0 then return (false, dst)
      else
        let s ← get
        let r' := takeStr (getBytes (s.mem pa0) (srcva % pgsize)
          (min (pgsize - srcva % pgsize) (max + 1)))
        if r'.2 then return (true, dst ++ r'.1)
        else
          copyinstrLoop r fuel (u64 (pgrounddown srcva + pgsize))
            (max + 1 - min (pgsize - srcva % pgsize) (max + 1)) (dst ++ r'.1)) := by
  rw [← sub_pgrounddown]
  rfl

/-! ## The pages of a range -/

/-- The pages of the range of `len` bytes at `va`. -/
def span (va len : ℕ) : Finset ℕ := if len = 0 then ∅ else Ico (va / pgsize) (npages (va + len))

theorem mem_span : v ∈ span va len ↔ 0 < len ∧ va / pgsize ≤ v ∧ v * pgsize < va + len := by
  unfold span
  split_ifs with h
  · simp [h]
  · rw [mem_Ico]
    unfold npages pgsize
    omega

/-- The range without its first page. -/
theorem span_succ (hn : n = min (pgsize - va % pgsize) len) (hlen : 0 < len) :
    span va len = insert (va / pgsize) (span ((va / pgsize + 1) * pgsize) (len - n)) := by
  ext v
  rw [mem_insert, mem_span, mem_span, div_pgsize]
  unfold pgsize at *
  omega

theorem notMem_span_next : va / pgsize ∉ span ((va / pgsize + 1) * pgsize) len := by
  rw [mem_span, div_pgsize]
  omega

/-- The free pages that it takes to map the pages `V`. -/
def Tbl.need (t : Tbl) (V : Finset ℕ) : ℕ :=
  #V + #{j ∈ V.image (· / 512) | t.low j = none} + #{i ∈ V.image (· / 512 / 512) | t.mid i = none}

def Tbl.unmapped (t : Tbl) (V : Finset ℕ) : Finset ℕ := {v ∈ V | (t.pte v).isNone}

theorem card_filter_insert {P P' : ℕ → Prop} [DecidablePred P] [DecidablePred P'] (I : Finset ℕ)
    (a : ℕ) (h : ∀ j, P' j ↔ P j ∧ j ≠ a) :
    #{j ∈ insert a I | P j} = (if P a then 1 else 0) + #{j ∈ I | P' j} := by
  have hI : {j ∈ I | P' j} = {j ∈ I | P j}.erase a := by
    ext j
    rw [mem_filter, mem_erase, mem_filter, h]
    tauto
  rw [filter_insert]
  split_ifs with ha
  · rw [hI, ← card_erase_add_one (mem_insert_self a _), erase_insert_eq_erase, add_comm]
  · rw [hI, erase_eq_of_notMem fun hm => ha (mem_filter.1 hm).2, Nat.zero_add]

theorem Tbl.Over.need_insert (h : t.Over t' v) {V : Finset ℕ} (hv : v ∉ V) :
    t.need (insert v V) = 1 + t.missing v + t'.need V := by
  have hlow : #{j ∈ insert (v / 512) (V.image (· / 512)) | t.low j = none} =
      (if t.low (v / 512) = none then 1 else 0) + #{j ∈ V.image (· / 512) | t'.low j = none} :=
    card_filter_insert _ _ h.low
  have hmid : #{i ∈ insert (v / 512 / 512) (V.image (· / 512 / 512)) | t.mid i = none} =
      (if t.mid (v / 512 / 512) = none then 1 else 0) +
        #{i ∈ V.image (· / 512 / 512) | t'.mid i = none} :=
    card_filter_insert _ _ h.mid
  unfold Tbl.need Tbl.missing
  rw [card_insert_of_notMem hv, image_insert, image_insert, hlow, hmid]
  omega

theorem le_need {V : Finset ℕ} (hv : v ∈ V) : 1 + t.missing v ≤ t.need V := by
  have hcard : ∀ {I : Finset ℕ} {P : ℕ → Prop} [DecidablePred P] {a : ℕ}, a ∈ I →
      (if P a then 1 else 0) ≤ #{j ∈ I | P j} := by
    intro I P _ a ha
    split_ifs with hP
    · exact card_pos.2 ⟨a, mem_filter.2 ⟨ha, hP⟩⟩
    · exact Nat.zero_le _
  have h0 : 0 < #V := card_pos.2 ⟨v, hv⟩
  have h1 := hcard (P := fun j => t.low j = none) (mem_image_of_mem (· / 512) hv)
  have h2 := hcard (P := fun i => t.mid i = none) (mem_image_of_mem (· / 512 / 512) hv)
  unfold Tbl.need Tbl.missing
  omega

/-! ## When a range can be accessed -/

/-- Page `v` is mapped for the user, and for writing if `w`, or it is not mapped and below `sz`. -/
def Tbl.Allows (t : Tbl) (w : Bool) (sz v : ℕ) : Prop :=
  (∃ e, t.pte v = some e ∧ e.perm.u = true ∧ (w = true → e.perm.w = true)) ∨
    (t.pte v = none ∧ v * pgsize < sz)

/-- All pages of the range can be accessed, if those that are not mapped are faulted in, and `f` free
pages are enough for that. -/
structure Tbl.Allowed (t : Tbl) (w : Bool) (sz f va len : ℕ) : Prop where
  page : ∀ v ∈ span va len, t.Allows w sz v
  enough : t.need (t.unmapped (span va len)) ≤ f

theorem allowed_zero : t.Allowed w sz f va 0 where
  page _ hv := absurd (mem_span.1 hv).1 (lt_irrefl 0)
  enough := Nat.zero_le _

/-- The first page is mapped. -/
theorem allowed_mapped (hn : n = min (pgsize - va % pgsize) len) (hlen : 0 < len)
    (he : t.pte (va / pgsize) = some e) (hu : e.perm.u) (hw : w → e.perm.w) :
    t.Allowed w sz f va len ↔ t.Allowed w sz f ((va / pgsize + 1) * pgsize) (len - n) := by
  have hun : t.unmapped (span va len) = t.unmapped (span ((va / pgsize + 1) * pgsize) (len - n)) := by
    unfold Tbl.unmapped
    rw [span_succ hn hlen, filter_insert, he, if_neg (by simp)]
  constructor
  · rintro ⟨hpage, henough⟩
    rw [hun] at henough
    exact ⟨fun v hv => hpage v (by rw [span_succ hn hlen]; exact mem_insert_of_mem hv), henough⟩
  · rintro ⟨hpage, henough⟩
    refine ⟨fun v hv => ?_, by rw [hun]; exact henough⟩
    rw [span_succ hn hlen, mem_insert] at hv
    rcases hv with rfl | hv
    · exact .inl ⟨e, he, hu, hw⟩
    · exact hpage v hv

theorem allowed_fault (hn : n = min (pgsize - va % pgsize) len) (hlen : 0 < len)
    (hnone : t.pte (va / pgsize) = none) (hsz : va / pgsize * pgsize < sz)
    (hover : t.Over t' (va / pgsize)) (hpte : ∀ k ≠ va / pgsize, t'.pte k = t.pte k)
    (hf : f = f' + (1 + t.missing (va / pgsize))) :
    t.Allowed w sz f va len ↔ t'.Allowed w sz f' ((va / pgsize + 1) * pgsize) (len - n) := by
  have hne : ∀ v ∈ span ((va / pgsize + 1) * pgsize) (len - n), t'.pte v = t.pte v := by
    intro v hv
    apply hpte
    rintro rfl
    exact notMem_span_next hv
  have hun : t.unmapped (span va len) =
      insert (va / pgsize) (t'.unmapped (span ((va / pgsize + 1) * pgsize) (len - n))) := by
    unfold Tbl.unmapped
    rw [span_succ hn hlen, filter_insert, hnone, Option.isNone_none, if_pos rfl]
    congr 1
    exact filter_congr fun v hv => by rw [hne v hv]
  have hneed : t.need (t.unmapped (span va len)) = 1 + t.missing (va / pgsize) +
      t'.need (t'.unmapped (span ((va / pgsize + 1) * pgsize) (len - n))) := by
    rw [hun]
    exact hover.need_insert fun hm => notMem_span_next (mem_filter.1 hm).1
  have hallows : ∀ v ∈ span ((va / pgsize + 1) * pgsize) (len - n),
      t'.Allows w sz v ↔ t.Allows w sz v := fun v hv => by
    unfold Tbl.Allows
    rw [hne v hv]
  constructor
  · rintro ⟨hpage, henough⟩
    refine ⟨fun v hv => (hallows v hv).2 (hpage v ?_), by omega⟩
    rw [span_succ hn hlen]
    exact mem_insert_of_mem hv
  · rintro ⟨hpage, henough⟩
    refine ⟨fun v hv => ?_, by omega⟩
    rw [span_succ hn hlen, mem_insert] at hv
    rcases hv with rfl | hv
    · exact .inr ⟨hnone, hsz⟩
    · exact (hallows v hv).1 (hpage v hv)

/-- The range goes on behind its first page as if it started there. -/
theorem Access.allowed (ha : Access L p (va / pgsize) s pa s')
    (hn : n = min (pgsize - va % pgsize) len) (hlen : 0 < len)
    (he : (s'.tbl p.pagetable).pte (va / pgsize) = some e) (hpa : e.pa = pa) (h0 : pa ≠ 0)
    (hw : w → e.perm.w) :
    (s.tbl p.pagetable).Allowed w p.sz s.free.length va len ↔
      (s'.tbl p.pagetable).Allowed w p.sz s'.free.length ((va / pgsize + 1) * pgsize) (len - n) := by
  cases ha with
  | hit he' hu =>
    obtain rfl := Option.some.inj (he.symm.trans he')
    exact allowed_mapped hn hlen he hu hw
  | fault hnone hlt _ hf hlen' hover =>
    exact allowed_fault hn hlen hnone hlt hover
      (fun k hk => by rw [hf.pte, Function.update_of_ne hk]) hlen'
  | miss => exact absurd rfl h0

theorem Access.not_allowed (ha : Access L p (va / pgsize) s 0 s') (hlen : 0 < len) :
    ¬(s.tbl p.pagetable).Allowed w p.sz s.free.length va len := by
  have hmem : va / pgsize ∈ span va len := by
    rw [span_succ rfl hlen]
    exact mem_insert_self ..
  rintro ⟨hpage, henough⟩
  generalize hpa : (0 : ℕ) = pa at ha
  cases ha with
  | hit he hu h0 => exact h0 hpa.symm
  | fault _ _ h0 => exact h0 hpa.symm
  | miss hu hfree =>
    rcases hpage _ hmem with ⟨e, he, hue, -⟩ | ⟨hnone, hlt⟩
    · rw [hu e he] at hue
      cases hue
    · have hm : va / pgsize ∈ (s.tbl p.pagetable).unmapped (span va len) :=
        mem_filter.2 ⟨hmem, by rw [hnone]; rfl⟩
      have hneed := le_need (t := s.tbl p.pagetable) hm
      have := hfree hnone hlt
      omega

theorem Access.old_or_writable (ha : Access L p v s pa s')
    (he : (s'.tbl p.pagetable).pte v = some e) (h0 : pa ≠ 0) :
    (s.tbl p.pagetable).pte v = some e ∨ e.perm.w := by
  cases ha with
  | hit => exact .inl he
  | fault _ _ _ hf =>
    rw [hf.pte, Function.update_self] at he
    rw [← Option.some.inj he]
    exact .inr rfl
  | miss => exact absurd rfl h0

/-! ## Where a copy stops -/

/-- The pages of the range at `va` that would have to be faulted in. -/
def lazyPages (s : St T) (p : Proc) (va len : ℕ) : ℕ :=
  (List.range' (va / pgsize) (npages (va % pgsize + len))).countP fun v =>
    v < npages p.sz ∧ (s.tbl p.pagetable).pte v = none

/-- The range without its first page. -/
theorem lazyPages_succ {n len : ℕ} (hn : n = min (pgsize - va % pgsize) len) (hlen : 0 < len) :
    lazyPages s p va len = lazyPages s p ((va / pgsize + 1) * pgsize) (len - n) +
      if va / pgsize < npages p.sz ∧ (s.tbl p.pagetable).pte (va / pgsize) = none then 1 else 0 := by
  have hcount : npages (va % pgsize + len) = npages (0 + (len - n)) + 1 := by
    unfold npages pgsize at *
    omega
  unfold lazyPages
  rw [hcount, List.range'_succ, List.countP_cons, div_pgsize, Nat.mul_mod_left]
  congr 1
  simp only [decide_eq_true_eq]

theorem lazyPages_congr {w n : ℕ}
    (h : ∀ k, w ≤ k → (s'.tbl p.pagetable).pte k = (s.tbl p.pagetable).pte k) :
    lazyPages s' p (w * pgsize) n = lazyPages s p (w * pgsize) n := by
  unfold lazyPages
  rw [div_pgsize]
  apply List.countP_congr
  intro k hk
  have := (List.mem_range'_1.1 hk).1
  rw [h k this]

theorem missing_le (t : Tbl) (v : ℕ) : t.missing v ≤ 2 := by
  unfold Tbl.missing
  split_ifs <;> omega

theorem Access.lack (ha : Access L p (va / pgsize) s 0 s') (hlen : 0 < len) :
    (Vm.umem s p).get va = none ∨ s.free.length < 3 * lazyPages s p va len := by
  generalize hpa : (0 : ℕ) = pa at ha
  cases ha with
  | hit he hu h0 => exact absurd hpa.symm h0
  | fault _ _ h0 => exact absurd hpa.symm h0
  | miss hu hfree =>
    by_cases hv : va / pgsize < npages p.sz
    · cases he : (s.tbl p.pagetable).pte (va / pgsize) with
      | some e => exact .inl (get_of_not_user he (by rw [hu e he]; simp) rfl)
      | none =>
        right
        have hlt := hfree he (by unfold npages at hv; unfold pgsize at *; omega)
        have := missing_le (s.tbl p.pagetable) (va / pgsize)
        rw [lazyPages_succ rfl hlen, if_pos ⟨hv, he⟩]
        omega
    · exact .inl (get_of_ge (by omega))

/-- Memory that is exhausted behind the first page was not enough for the range. -/
theorem Access.exhausted (ha : Access L p (va / pgsize) s pa s') (h0 : pa ≠ 0)
    (hn : n = min (pgsize - va % pgsize) len) (hlen : 0 < len)
    (h : s'.free.length < 3 * lazyPages s' p ((va / pgsize + 1) * pgsize) (len - n)) :
    s.free.length < 3 * lazyPages s p va len := by
  rw [lazyPages_succ hn hlen]
  cases ha with
  | hit => omega
  | fault hnone hlt _ hf hfree =>
    have hpte : ∀ k, va / pgsize + 1 ≤ k →
        (s'.tbl p.pagetable).pte k = (s.tbl p.pagetable).pte k := fun k hk => by
      rw [hf.pte, Function.update_of_ne (by omega)]
    rw [lazyPages_congr hpte] at h
    have := missing_le (s.tbl p.pagetable) (va / pgsize)
    rw [if_pos ⟨lt_npages hlt, hnone⟩]
    omega
  | miss => exact absurd rfl h0

/-- A copy of `len` bytes at `va` ends after `k` bytes: the bytes before it can be accessed, and the
next one cannot, or `lack`. -/
structure Stops (acc : ℕ → Prop) (lack : Prop) (va len k : ℕ) : Prop where
  le : k ≤ len
  before : ∀ i < k, acc (va + i)
  stop : k < len → ¬acc (va + k) ∨ lack

theorem Stops.next {acc : ℕ → Prop} {lack lack' : Prop} {k : ℕ}
    (hn : n = min (pgsize - va % pgsize) len) (hacc : ∀ i < n, acc (va + i)) (hl : lack' → lack)
    (h : Stops acc lack' ((va / pgsize + 1) * pgsize) (len - n) k) : Stops acc lack va len (n + k) := by
  have hle := h.le
  refine ⟨by omega, fun i hi => ?_, fun hlt => ?_⟩
  · by_cases hin : i < n
    · exact hacc i hin
    · have := h.before (i - n) (by omega)
      rwa [← chunk_end hn (by omega), show va + n + (i - n) = va + i by omega] at this
  · have := h.stop (by omega)
    rw [← chunk_end hn (by omega), Nat.add_assoc] at this
    exact this.imp_right hl

/-! ## `copyin` -/

/-- What `copyin` of `len` bytes at `va` does. -/
structure CopiedIn (L : Layout) (p : Proc) (s : St T) (va len : ℕ) (dst : List UInt8)
    (x : Bool × List UInt8) (s' : St T) : Prop where
  allowed : x.1 ↔ (s.tbl p.pagetable).Allowed false p.sz s.free.length va len
  bytes : ∃ k, Stops (fun a => (umem s p).get a ≠ none)
    (s.free.length < 3 * lazyPages s p va len) va len k ∧ (x.1 ↔ k = len) ∧
    x.2 = dst ++ (List.range k).map fun i => (umem s p).byte (va + i)
  sound : Sound L p s s'
  umem : umem s' p = umem s p
  within : Within p.pagetable s s'

theorem copyinLoop_exact (fuel : ℕ) : ∀ {s : St T} {srcva len : ℕ} {dst : List UInt8}, len ≤ fuel →
    AddrSpace L p s → Tot (copyinLoop L p p.pagetable fuel srcva len dst) s fun x s' =>
      CopiedIn L p s srcva len dst x s' := by
  have hzero : ∀ (s : St T) (srcva : ℕ) (dst : List UInt8), AddrSpace L p s →
      CopiedIn L p s srcva 0 dst (true, dst) s := fun s srcva dst h =>
    ⟨⟨fun _ => allowed_zero, fun _ => rfl⟩,
      ⟨0, ⟨le_rfl, nofun, nofun⟩, ⟨fun _ => rfl, fun _ => rfl⟩, (List.append_nil _).symm⟩,
      .refl h.space h.proc_ok, rfl, .refl _ s⟩
  induction fuel with
  | zero =>
    intro s srcva len dst hfuel h
    obtain rfl : len = 0 := by omega
    exact tot_pure (hzero s srcva dst h)
  | succ fuel ih =>
    intro s srcva len dst hfuel h
    cases len with
    | zero => exact tot_pure (hzero s srcva dst h)
    | succ len =>
      rw [copyinLoop_succ]
      apply tot_bind
      apply tot_mono (faultIn_access (v := srcva / pgsize) h)
      intro pa s1 ha
      by_cases h0 : pa = 0
      · subst h0
        rw [if_pos rfl]
        refine tot_pure ⟨⟨nofun, fun hall => absurd hall (ha.not_allowed (by omega))⟩,
          ⟨0, ⟨Nat.zero_le _, nofun, fun _ => ?_⟩, ⟨nofun, nofun⟩, (List.append_nil _).symm⟩,
          ha.sound h, ha.umem h, ha.within⟩
        exact (ha.lack (by omega)).imp_left not_not.2
      · rw [if_neg h0]
        obtain ⟨hv, e, he, rfl, hu⟩ := ha.found h h0
        apply tot_get
        rw [next_page h hv]
        generalize hn : min (pgsize - srcva % pgsize) (len + 1) = n
        have hpos : srcva % pgsize < pgsize := Nat.mod_lt _ (by unfold pgsize; norm_num)
        have hs1 := ha.sound h
        apply tot_mono (ih (by omega) (h.sound hs1))
        rintro x s2 ⟨hiff, ⟨k, hk, hxk, hbytes⟩, hs2, hum2, hw2⟩
        rw [ha.umem h] at hk hbytes
        have hget : ∀ i < n, (umem s p).get (srcva + i) ≠ none := fun i hi => by
          rw [← ha.umem h, get_of_pte hv he hu (div_in_page (by omega))]
          simp
        refine ⟨hiff.trans (ha.allowed hn.symm (by omega) he rfl h0 (by simp)).symm,
          ⟨n + k, hk.next hn.symm hget (ha.exhausted h0 hn.symm (by omega)), hxk.trans (by omega), ?_⟩,
          hs1.trans hs2, hum2.trans (ha.umem h), ha.within.trans hw2⟩
        rw [hbytes, List.append_assoc, List.range_add, List.map_append, List.map_map]
        congr 2
        -- the first chunk comes from the page, the rest from the remaining iterations
        · unfold getBytes
          apply List.map_congr_left
          intro i hi
          have hi' : i < n := List.mem_range.1 hi
          rw [← ha.umem h, byte_of_pte hv he (div_in_page (by omega)), mod_in_page (by omega)]
        · apply List.map_congr_left
          intro i hi
          have hik : i < k := List.mem_range.1 hi
          have := hk.le
          rw [← chunk_end hn.symm (by omega), Nat.add_assoc]
          rfl

/-! ## `copyout` -/

/-- What `copyout` of `src` at `va` does. -/
structure CopiedOut (L : Layout) (p : Proc) (s : St T) (va : ℕ) (src : List UInt8) (ok : Bool)
    (s' : St T) : Prop where
  allowed : ok ↔ (s.tbl p.pagetable).Allowed true p.sz s.free.length va src.length
  bytes : ∃ k, Stops (fun a => (umem s p).can a)
    (s.free.length < 3 * lazyPages s p va src.length) va src.length k ∧
    (ok ↔ k = src.length) ∧
    umem s' p = { umem s p with byte := Cells.put (umem s p).byte va (src.take k) }
  sound : Sound L p s s'
  within : Within p.pagetable s s'

/-- Nothing was copied. -/
theorem copiedOut_none {src : List UInt8} (hs : Sound L p s s') (hum : umem s' p = umem s p)
    (hw : Within p.pagetable s s') (hlen : 0 < src.length)
    (hall : ¬(s.tbl p.pagetable).Allowed true p.sz s.free.length va src.length)
    (hstop : (umem s p).can va = false ∨ s.free.length < 3 * lazyPages s p va src.length) :
    CopiedOut L p s va src false s' := by
  refine ⟨⟨nofun, fun h => absurd h hall⟩, ⟨0, ⟨Nat.zero_le _, nofun, fun _ => ?_⟩,
    ⟨nofun, fun h => absurd h (by omega)⟩, ?_⟩, hs, hw⟩
  · exact hstop.imp_left Bool.eq_false_iff.1
  · rw [List.take_zero, Cells.put_nil, hum]

theorem copyoutLoop_exact (fuel : ℕ) : ∀ {s : St T} {dstva : ℕ} {src : List UInt8},
    src.length ≤ fuel → AddrSpace L p s →
    Tot (copyoutLoop L p p.pagetable fuel dstva src) s fun ok s' =>
      CopiedOut L p s dstva src ok s' := by
  have hnil : ∀ (s : St T) (dstva : ℕ), AddrSpace L p s → CopiedOut L p s dstva [] true s :=
    fun s dstva h => ⟨⟨fun _ => allowed_zero, fun _ => rfl⟩,
      ⟨0, ⟨le_rfl, nofun, nofun⟩, ⟨fun _ => rfl, fun _ => rfl⟩, by rw [List.take_nil, Cells.put_nil]⟩,
      .refl h.space h.proc_ok, .refl _ s⟩
  induction fuel with
  | zero =>
    intro s dstva src hfuel h
    obtain rfl : src = [] := List.length_eq_zero_iff.1 (by omega)
    exact tot_pure (hnil s dstva h)
  | succ fuel ih =>
    intro s dstva src hfuel h
    cases src with
    | nil => exact tot_pure (hnil s dstva h)
    | cons c src =>
      have hpos : 0 < (c :: src).length := Nat.succ_pos _
      have hfirst : dstva / pgsize ∈ span dstva (c :: src).length := by
        rw [span_succ rfl hpos]
        exact mem_insert_self ..
      rw [copyoutLoop_cons]
      split_ifs with hge
      · -- no page above `MAXVA` is mapped
        have hsz := h.proc_ok.sz_le
        unfold pgrounddown at hge
        unfold trapframeVa trampolineVa at hsz
        refine tot_pure (copiedOut_none (.refl h.space h.proc_ok) rfl (.refl _ s) hpos
          (fun hall => ?_) (.inl (can_of_get (get_of_ge (npages_le_iff.2 (by omega))))))
        rcases hall.page _ hfirst with ⟨e, he, -⟩ | ⟨-, hlt⟩
        · have := h.space.ok.pte_lt (v := dstva / pgsize) (by rw [he]; rfl)
          exact absurd (mul_pgsize_lt this) (by omega)
        · omega
      apply tot_bind
      apply tot_mono (faultIn_access (v := dstva / pgsize) h)
      intro pa s1 ha
      have hs1 := ha.sound h
      by_cases h0 : pa = 0
      · subst h0
        rw [if_pos rfl]
        exact tot_pure (copiedOut_none hs1 (ha.umem h) ha.within hpos (ha.not_allowed hpos)
          ((ha.lack hpos).imp_left can_of_get))
      rw [if_neg h0]
      obtain ⟨hv, e, he, rfl, hu⟩ := ha.found h h0
      have hsp1 := h.sound hs1
      have hdiv : pgrounddown dstva / pgsize = dstva / pgsize := div_pgsize _
      have hpte : (s1.tbl p.pagetable).pte (pgrounddown dstva / pgsize) = some e := by rw [hdiv, he]
      apply tot_bind_eq (walk_false hsp1.space.ok (by omega))
      rw [hsp1.space.ok.low_of_pte (by rw [hpte]; rfl), if_pos rfl]
      apply tot_get
      rw [hpte]
      dsimp only
      have hmod : dstva % pgsize < pgsize := Nat.mod_lt _ (by unfold pgsize; norm_num)
      have hcan : ∀ i < pgsize - dstva % pgsize, (umem s p).can (dstva + i) = e.perm.w := fun i hi => by
        rw [← ha.umem h]
        exact can_of_pte hv he hu (div_in_page hi)
      by_cases hw : e.perm.w = true
      · rw [if_pos hw]
        apply tot_modify
        rw [next_page h hv]
        generalize hn : min (pgsize - dstva % pgsize) (c :: src).length = n
        have hlen : ((c :: src).take n).length = n := by
          rw [List.length_take]
          omega
        have hset := umem_setMem hsp1 hv he (l := (c :: src).take n) (by rw [hlen]; omega)
        have hs : Sound L p s _ := hs1.trans (.setMem hsp1.space hsp1.proc_ok e.pa
          (putBytes (s1.mem e.pa) (dstva % pgsize) ((c :: src).take n)))
        have hwithin := ha.within.trans (within_setMem (hsp1.lt_userPages hv) he
          (putBytes (s1.mem e.pa) (dstva % pgsize) ((c :: src).take n)))
        have hall := ha.allowed (w := true) hn.symm hpos he rfl h0 fun _ => hw
        rw [← List.length_drop] at hall
        apply tot_mono (ih (by rw [List.length_drop]; omega) (h.sound hs))
        rintro ok s2 ⟨hiff, ⟨k, hk, hxk, hbytes⟩, hs2, hw2⟩
        rw [hset, ha.umem h] at hk hbytes
        rw [List.length_drop] at hk hxk
        have hk' := hk.le
        refine ⟨hiff.trans hall.symm, ⟨n + k, ?_, hxk.trans (by omega), ?_⟩, hs.trans hs2,
          hwithin.trans hw2⟩
        · exact hk.next hn.symm (fun i hi => (hcan i (by omega)).trans hw)
            (ha.exhausted h0 hn.symm hpos)
        · -- the first chunk and the others are one write
          rw [hbytes, List.take_add, Cells.put_append, hlen]
          by_cases hz : (c :: src).length - n = 0
          · rw [List.drop_eq_nil_of_le (by omega), List.take_nil, Cells.put_nil, Cells.put_nil]
          · rw [chunk_end hn.symm hz]
      · rw [if_neg hw]
        refine tot_pure (copiedOut_none hs1 (ha.umem h) ha.within hpos (fun hall => ?_) (.inl ?_))
        · rcases ha.old_or_writable he h0 with he' | hw'
          · rcases hall.page _ hfirst with ⟨g, hg, -, hgw⟩ | ⟨hnone, -⟩
            · obtain rfl := Option.some.inj (he'.symm.trans hg)
              exact absurd (hgw rfl) hw
            · rw [he'] at hnone
              cases hnone
          · exact absurd hw' hw
        · have := hcan 0 (by omega)
          rw [Nat.add_zero] at this
          rw [this, Bool.eq_false_iff.2 hw]

/-! ## `copyinstr` -/

/-- The byte at `a` on a page that is mapped for the user. -/
def userByte (s : St T) (r a : ℕ) : Option UInt8 :=
  ((s.tbl r).pte (a / pgsize)).bind fun e =>
    if e.perm.u then some (s.mem e.pa (a % pgsize)) else none

theorem userByte_of_pte {r a : ℕ} (he : (s.tbl r).pte (a / pgsize) = some e) (hu : e.perm.u) :
    userByte s r a = some (s.mem e.pa (a % pgsize)) := by
  unfold userByte
  rw [he]
  exact if_pos hu

theorem AddrSpace.userByte_none (h : AddrSpace L p s) {a : ℕ}
    (h0 : userPa (s.tbl p.pagetable) (a / pgsize) = 0) : userByte s p.pagetable a = none := by
  unfold userByte
  cases he : (s.tbl p.pagetable).pte (a / pgsize) with
  | none => rfl
  | some e => exact if_neg (by rw [h.not_user h0 he]; simp)

theorem copyinstrLoop_exact (h : AddrSpace L p s) (fuel : ℕ) :
    ∀ {srcva max : ℕ} {dst : List UInt8}, max ≤ fuel →
    Tot (copyinstrLoop p.pagetable fuel srcva max dst) s fun x s' => s' = s ∧
      x = ((Cells.readTo (· == 0) (userByte s p.pagetable) srcva max).1,
        dst ++ (Cells.readTo (· == 0) (userByte s p.pagetable) srcva max).2) := by
  induction fuel with
  | zero =>
    intro srcva max dst hfuel
    obtain rfl : max = 0 := by omega
    exact tot_pure ⟨rfl, by simp [Cells.readTo]⟩
  | succ fuel ih =>
    intro srcva max dst hfuel
    cases max with
    | zero => exact tot_pure ⟨rfl, by simp [Cells.readTo]⟩
    | succ max =>
      have hdiv : pgrounddown srcva / pgsize = srcva / pgsize := div_pgsize _
      have hpos : srcva % pgsize < pgsize := Nat.mod_lt _ (by unfold pgsize; norm_num)
      rw [copyinstrLoop_succ]
      apply tot_bind_eq (walkaddr_eq h.space.ok)
      rw [hdiv]
      by_cases h0 : userPa (s.tbl p.pagetable) (srcva / pgsize) = 0
      · rw [if_pos h0]
        refine tot_pure ⟨rfl, ?_⟩
        rw [Cells.readTo_none (h.userByte_none h0), List.append_nil]
      · rw [if_neg h0]
        obtain ⟨hv, e, he, hpa, hu⟩ := h.of_userPa h0
        apply tot_get
        rw [← hpa, next_page h hv]
        dsimp only
        rw [takeStr_eq]
        generalize hn : min (pgsize - srcva % pgsize) (max + 1) = n
        have hget : ∀ i < n, userByte s p.pagetable (srcva + i) =
            some (s.mem e.pa (srcva % pgsize + i)) := by
          intro i hi
          rw [userByte_of_pte (by rw [div_in_page (by omega)]; exact he) hu, mod_in_page (by omega)]
        have hread := Cells.readTo_add (· == 0) n (max + 1 - n) hget
        rw [show n + (max + 1 - n) = max + 1 by omega] at hread
        have hchunk : getBytes (s.mem e.pa) (srcva % pgsize) n =
            (List.range n).map fun i => s.mem e.pa (srcva % pgsize + i) := rfl
        rw [hchunk]
        by_cases hstop : (Cells.upTo (· == 0) ((List.range n).map fun i =>
            s.mem e.pa (srcva % pgsize + i))).1 = true
        · rw [if_pos hstop] at hread ⊢
          refine tot_pure ⟨rfl, ?_⟩
          rw [hread]
          exact Prod.ext hstop.symm rfl
        · rw [if_neg hstop] at hread ⊢
          apply tot_mono (ih (by omega))
          rintro x s' ⟨rfl, rfl⟩
          refine ⟨rfl, ?_⟩
          -- the rest of the string starts at the next page, if there is a rest
          have hrest : Cells.readTo (· == 0) (userByte s' p.pagetable) ((srcva / pgsize + 1) * pgsize)
              (max + 1 - n) = Cells.readTo (· == 0) (userByte s' p.pagetable) (srcva + n)
              (max + 1 - n) := by
            by_cases hz : max + 1 - n = 0
            · rw [hz]
              rfl
            · rw [chunk_end hn.symm hz]
          rw [hread, hrest, List.append_assoc]

/-! ## 64-bit addresses -/

/-- The access rule for the bytes `va..va + len - 1`, whose addresses are `uint64` values: each is on
a page below `MAXVA` that is mapped for the user, and for writing if `w`, or that is not mapped and
starts below `sz`; and the free pages are enough for the pages that are not mapped, with the
page-table pages that are missing over them. -/
def Tbl.Accessible (t : Tbl) (w : Bool) (sz f va len : ℕ) : Prop :=
  (∀ i < len, u64 (va + i) / pgsize * pgsize < maxva ∧ t.Allows w sz (u64 (va + i) / pgsize)) ∧
    t.need (t.unmapped (span va len)) ≤ f

theorem u64_natCast_add {i : ℕ} (h : va + i < 2 ^ 64) : u64 (va + i) = va + i := by
  have := u64_of_lt h
  push_cast at this
  exact this

theorem allowed_iff (ht : PtOk t) (hsz : sz ≤ trapframeVa) (hva : va < 2 ^ 64) :
    t.Allowed w sz f va len ↔ t.Accessible w sz f va len := by
  have hmax : ∀ {v : ℕ}, t.Allows w sz v → v * pgsize < maxva := by
    rintro v (⟨e, he, -⟩ | ⟨-, hlt⟩)
    · exact mul_pgsize_lt (ht.pte_lt (by rw [he]; rfl))
    · unfold trapframeVa trampolineVa at hsz
      omega
  constructor
  · rintro ⟨hpage, henough⟩
    refine ⟨fun i hi => ?_, henough⟩
    have hall : t.Allows w sz ((va + i) / pgsize) := by
      apply hpage
      rw [mem_span]
      have := Nat.div_mul_le_self (va + i) pgsize
      exact ⟨by omega, Nat.div_le_div_right (by omega), by omega⟩
    have hlt := hmax hall
    have : va + i < 2 ^ 64 := by
      unfold maxva pgsize at hlt
      omega
    rw [u64_natCast_add this]
    exact ⟨hlt, hall⟩
  · rintro ⟨hpage, henough⟩
    -- a range that wraps around contains the last address
    have hend : va + len ≤ 2 ^ 64 := by
      by_contra hgt
      have := (hpage (2 ^ 64 - 1 - va) (by omega)).1
      rw [u64_natCast_add (by omega)] at this
      unfold maxva pgsize at this
      omega
    refine ⟨fun v hv => ?_, henough⟩
    obtain ⟨hpos, hle, hlt⟩ := mem_span.1 hv
    have hv' : (va + (v * pgsize - va)) / pgsize = v := by
      unfold pgsize at *
      omega
    have := (hpage (v * pgsize - va) (by omega)).2
    rwa [u64_natCast_add (by omega), hv'] at this

/-- A string of `k` bytes and its NUL at `va`, on pages that are mapped for the user. -/
def StringAt (s : St T) (r va k : ℕ) : Prop :=
  (∀ j < k, ∃ c, userByte s r (u64 (va + j)) = some c ∧ c ≠ 0) ∧
    userByte s r (u64 (va + k)) = some 0

theorem stringAt_iff {r k : ℕ} (ht : PtOk (s.tbl r)) (hva : va < 2 ^ 64) :
    Cells.EndsAt (· == 0) (userByte s r) va k ↔ StringAt s r va k := by
  have hnone : ∀ {a : ℕ}, 2 ^ 38 ≤ a → userByte s r a = none := by
    intro a ha
    unfold userByte
    rw [ht.pte_none (by unfold pgsize; omega)]
    rfl
  by_cases hk : va + k < 2 ^ 64
  · unfold Cells.EndsAt StringAt
    rw [u64_natCast_add hk]
    refine and_congr (forall₂_congr fun j hj => ?_) ?_
    · rw [u64_natCast_add (by omega)]
      simp
    · simp
  · refine iff_of_false (fun ⟨_, c, hc, _⟩ => ?_) fun ⟨hall, _⟩ => ?_
    · rw [hnone (by omega)] at hc
      cases hc
    · obtain ⟨c, hc, -⟩ := hall (2 ^ 64 - 1 - va) (by omega)
      rw [u64_natCast_add (by omega), hnone (by omega)] at hc
      cases hc

end Xv6.Vm
