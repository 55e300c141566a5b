import Xv6.Exec.Load
import Xv6.Vm.Exec

/-!
# All or nothing

`kexec` either leaves the process, its memory and its name as they were, with every page free again
that was free, or the process has the new image.
-/

namespace Xv6.Exec

open Function

open Fs (readResult)
open Vm
open Vm.Image (Building)

variable {T : Type} [DecidableEq T] [Fintype T] {L : Layout} {t : T} {p : Proc} {r sz : ℕ}
  {U : Multiset ℕ} {file path : List UInt8} {argv : List (List UInt8)}

theorem tot_liftVm {α : Type} {x : K T α} {s : St T} {Q : α → St T → Prop}
    (h : Tot x s.vm fun a vm => Q a { s with vm := vm }) : Tot (liftVm x) s Q := by
  obtain ⟨a, vm, he, hq⟩ := h
  refine ⟨a, { s with vm := vm }, ?_, hq⟩
  unfold liftVm
  rw [he]

theorem liftVm_ok {α : Type} {x : K T α} {s : St T} {a : α} {vm : Vm.St T} (h : x s.vm = .ok (a, vm)) :
    liftVm x s = .ok (a, { s with vm := vm }) := by
  unfold liftVm
  rw [h]

/-! ## Registers -/

def reg (x : Page) (off : ℕ) : ℕ := ofBytes (getBytes x off 8)

theorem ofBytes_uint64 (x : ℕ) (n : ℕ) :
    ofBytes ((List.range n).map fun i => UInt8.ofNat (x / 2 ^ (8 * i))) = x % 2 ^ (8 * n) := by
  induction n generalizing x with
  | zero => simp [ofBytes, Nat.mod_one]
  | succ n ih =>
    have hshift : (List.range n).map ((fun i => UInt8.ofNat (x / 2 ^ (8 * i))) ∘ Nat.succ) =
        (List.range n).map fun i => UInt8.ofNat (x / 2 ^ 8 / 2 ^ (8 * i)) := by
      apply List.map_congr_left
      intro i _
      show UInt8.ofNat _ = _
      rw [Nat.div_div_eq_div_mul, ← Nat.pow_add, Nat.mul_succ, Nat.add_comm]
    rw [List.range_succ_eq_map, List.map_cons, List.map_map, hshift, ofBytes, ih, Nat.mul_succ,
      Nat.add_comm (8 * n), Nat.pow_add, Nat.mod_mul]
    simp [UInt8.toNat_ofNat']

theorem getBytes_putBytes_self (x : Page) (off : ℕ) {l : List UInt8} {n : ℕ} (h : l.length = n) :
    getBytes (putBytes x off l) off n = l := by
  apply List.ext_getElem?
  intro i
  unfold getBytes
  rw [List.getElem?_map]
  by_cases hi : i < n
  · rw [List.getElem?_range hi, Option.map_some, putBytes, if_pos (Nat.le_add_right _ _),
      Nat.add_sub_cancel_left, List.getElem?_eq_getElem (by omega)]
    rfl
  · rw [List.getElem?_eq_none (by rw [List.length_range]; omega),
      List.getElem?_eq_none (by omega)]
    rfl

theorem getBytes_putBytes_ne (x : Page) {off off' n : ℕ} {l : List UInt8}
    (h : off + l.length ≤ off' ∨ off' + n ≤ off) :
    getBytes (putBytes x off l) off' n = getBytes x off' n := by
  apply List.map_congr_left
  intro i hi
  have := List.mem_range.1 hi
  unfold putBytes
  split_ifs with hle
  · rw [List.getElem?_eq_none (by omega)]
    rfl
  · rfl

theorem length_reg (x : ℕ) : (uint64Bytes [x]).length = 8 := length_uint64Bytes [x]

theorem reg_put_self (x : Page) (off : ℕ) {v : ℕ} (hv : v < 2 ^ 64) :
    reg (putBytes x off (uint64Bytes [v])) off = v := by
  unfold reg
  rw [getBytes_putBytes_self x off (length_reg v)]
  unfold uint64Bytes
  rw [List.flatMap_cons, List.flatMap_nil, List.append_nil, ofBytes_uint64]
  exact Nat.mod_eq_of_lt hv

theorem reg_put_ne (x : Page) {off off' : ℕ} (v : ℕ) (h : off + 8 ≤ off' ∨ off' + 8 ≤ off) :
    reg (putBytes x off (uint64Bytes [v])) off' = reg x off' := by
  unfold reg
  rw [getBytes_putBytes_ne x (by rw [length_reg]; exact h)]

/-! ## The commit -/

theorem setReg_ok (trapframe off v : ℕ) (s : Vm.St T) :
    setReg trapframe off v s =
      .ok (⟨⟩, s.setMem trapframe (putBytes (s.mem trapframe) off (uint64Bytes [v]))) := rfl

theorem setMem_mem (s : Vm.St T) (pa : ℕ) (x : Page) : (s.setMem pa x).mem pa = x :=
  update_self ..

theorem setMem_setMem (s : Vm.St T) (pa : ℕ) (x y : Page) :
    (s.setMem pa x).setMem pa y = s.setMem pa y := by
  unfold Vm.St.setMem
  rw [update_idem]

theorem setProc_mem (s : Vm.St T) (o : Option Proc) : (s.setProc t o).mem = s.mem := rfl

theorem setMem_setProc (s : Vm.St T) (pa : ℕ) (x : Page) (o : Option Proc) :
    (s.setProc t o).setMem pa x = (s.setMem pa x).setProc t o := rfl

/-- The process in slot `t` has the image at `r`, which is that of `s`. -/
structure Committed (L : Layout) (t : T) (p : Proc) (r sz sp entry : ℕ) (s₀ s s' : Vm.St T) :
    Prop where
  proc : s'.proc = update s₀.proc t (some (Image.as p r sz))
  tbl : s'.tbl r = s.tbl r
  umem : umem s' (Image.as p r sz) = umem s (Image.as p r sz)
  a1 : reg (s'.mem p.trapframe) a1Off = sp
  sp_reg : reg (s'.mem p.trapframe) spOff = sp
  epc : reg (s'.mem p.trapframe) epcOff = entry

theorem commit_exact {s₀ : Vm.St T} {s : St T} {sp entry : ℕ} (h : Inv L U s₀)
    (hp : s₀.proc t = some p) (hb : Building L p r sz s₀ s.vm) (hsp : sp < 2 ^ 64)
    (hentry : entry < 2 ^ 64) :
    Tot (commit L t p path r sz sp entry) s fun _ s' => Inv L U s'.vm ∧
      Committed L t p r sz sp entry s₀ s.vm s'.vm := by
  have htf : p.trapframe ∉ s₀.free := h.notMem_free hp mem_owns_trapframe
  -- the registers are stored before the old table is freed
  set x := putBytes (putBytes (putBytes (s.vm.mem p.trapframe) a1Off (uint64Bytes [sp])) epcOff
    (uint64Bytes [entry])) spOff (uint64Bytes [sp]) with hx
  have hb' : Building L p r sz s₀ (s.vm.setMem p.trapframe x) := hb.memOnly (memOnly_setMem _ _ _)
  have hfree : Tot (procFreepagetable L p.pagetable p.sz)
      ((s.vm.setMem p.trapframe x).setProc t (some (Image.as p r sz))) fun _ s' => Inv L U s' ∧
        s'.proc = update s₀.proc t (some (Image.as p r sz)) ∧
        s'.tbl r = s.vm.tbl r ∧ OnlyFreed (s.vm.setMem p.trapframe x) s' := hb'.commit h hp
  unfold commit
  refine tot_bind_eq (liftVm_ok (setReg_ok _ _ _ _)) (tot_modify (tot_liftVm (tot_modify ?_)))
  refine tot_bind_eq (setReg_ok _ _ _ _) (tot_bind_eq (setReg_ok _ _ _ _) ?_)
  dsimp only
  rw [setMem_mem, setMem_setMem, setProc_mem, setMem_mem, setMem_setProc, setMem_setMem]
  apply tot_mono hfree
  rintro _ s' ⟨hi, hproc, htbl, hof⟩
  have hself : s'.proc t = some (Image.as p r sz) := by rw [hproc, update_self]
  -- the pages of the process are in use, so they were not freed
  have hkeep : ∀ pa ∈ owns s' (Image.as p r sz), s'.mem pa = (s.vm.setMem p.trapframe x).mem pa :=
    fun pa hpa => hof.mem pa (hi.notMem_free hself hpa)
  have htfmem : s'.mem p.trapframe = x := by
    rw [hkeep p.trapframe (mem_owns_trapframe (p := Image.as p r sz)), setMem_mem]
  refine ⟨hi, hproc, htbl, ?_, ?_, ?_, ?_⟩
  · apply umem_of_maps hb.proc_ok.sz_le htbl
    rintro pa ⟨v, e, -, hv, -, he, rfl⟩
    have hne : e.pa ≠ p.trapframe := by
      intro heq
      apply htf
      rw [← heq, ← Multiset.mem_coe, ← hb.bag]
      exact mem_bag_of_pte hv he
    have hown : e.pa ∈ owns s' (Image.as p r sz) := by
      refine Multiset.mem_add.2 (.inr ?_)
      show e.pa ∈ pages (s'.tbl r)
      rw [htbl]
      exact mem_pages hv he
    rw [hkeep _ hown]
    exact update_of_ne hne _ _
  · rw [htfmem, hx, reg_put_ne _ _ (by decide), reg_put_ne _ _ (by decide), reg_put_self _ _ hsp]
  · rw [htfmem, hx, reg_put_self _ _ hsp]
  · rw [htfmem, hx, reg_put_ne _ _ (by decide), reg_put_self _ _ hentry]

/-! ## The whole of `kexec` -/

/-- The process has a new image, made from what was loaded. -/
structure Executed (L : Layout) (t : T) (p : Proc) (file : List UInt8) (argv : List (List UInt8))
    (s₀ s' : Vm.St T) (r sz sz1 sp : ℕ) (s₁ s₂ : Vm.St T) : Prop where
  load : load L p file s₀ = .ok (some (r, sz), s₁)
  building : Building L p r sz s₀ s₁
  user : AllUser (s₁.tbl r) sz
  size : sz = (programHeaders file).foldl grow 0
  segment : ∀ ph ∈ programHeaders file, ph.type = elfProgLoad → Segment file sz ph
  byte : (umem s₁ (Image.as p r sz)).byte = (programHeaders file).foldl (place file) fun _ => 0
  stacked : Stacked L p argv r sz sz1 sp s₀ s₁ s₂
  committed : Committed L t p r sz1 sp (elfhdr file).entry s₀ s₂ s'

/-- `kexec` never panics. It fails and undoes all it did, or it succeeds. -/
theorem kexec_exact (path : List UInt8) {s : St T} (h : Inv L U s.vm) (hp : s.vm.proc t = some p)
    (hfile : file.length < 2 ^ 32) (hargv : ∀ arg ∈ argv, arg.length < pgsize) :
    Tot (kexec L t p path file argv) s fun n s' => Inv L U s'.vm ∧
      ((n = -1 ∧ Restored s.vm s'.vm ∧ Unwritten s.vm s'.vm ∧ s'.name = s.name ∧
        ∀ r sz s₁, load L p file s.vm = .ok (some (r, sz), s₁) → NoRoom L r sz s₁ ∨ ¬Fits argv) ∨
      (n = argv.length ∧ ∃ r sz sz1 sp s₁ s₂, ¬NoRoom L r sz s₁ ∧
        Executed L t p file argv s.vm s'.vm r sz sz1 sp s₁ s₂)) := by
  have hf := h.freeOk
  unfold kexec
  obtain ⟨o, s₁, he₁, hnone, hun₁, hsome⟩ := load_exact (p := p) hf hfile
  refine tot_bind_eq (liftVm_ok he₁) ?_
  cases o with
  | none =>
    refine tot_pure ⟨h.restored (hnone rfl), .inl ⟨rfl, hnone rfl, hun₁, rfl, ?_⟩⟩
    intro r sz s₁' he
    rw [he₁] at he
    cases he
  | some x =>
    obtain ⟨r, sz⟩ := x
    obtain ⟨hb, hres, hu, hsize, hseg, hbyte⟩ := hsome r sz rfl
    obtain ⟨o, s₂, he₂, hbad, hok⟩ := execStack_exact hf hb hargv
    refine tot_bind_eq (liftVm_ok he₂) ?_
    cases o with
    | none =>
      obtain ⟨hr, hun₂, hwhy⟩ := hbad rfl
      refine tot_pure ⟨h.restored hr, .inl ⟨rfl, hr, hun₂ hun₁, rfl, ?_⟩⟩
      intro r' sz' s₁' he
      rw [he₁] at he
      cases he
      exact hwhy
    | some x =>
      obtain ⟨sz1, sp⟩ := x
      obtain ⟨hroom, hst⟩ := hok sz1 sp rfl
      dsimp only
      rw [hres]
      have hsp : sp < 2 ^ 64 := by
        have hle : sz1 ≤ trapframeVa := hst.building.proc_ok.sz_le
        have := hst.sp_eq
        unfold trapframeVa trampolineVa maxva pgsize at hle
        omega
      apply tot_bind
      apply tot_mono (commit_exact h hp hst.building hsp (field_lt _ 24 8))
      rintro _ s' ⟨hi, hc⟩
      exact tot_pure ⟨hi, .inr ⟨rfl, r, sz, sz1, sp, s₁, s₂, hroom, he₁, hb, hu, hsize, hseg, hbyte,
        hst, hc⟩⟩

end Xv6.Exec
