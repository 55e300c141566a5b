import Xv6.Exec.Image
import Xv6.Vm.Room

/-!
# The arguments of a new program

Once the program is loaded, `kexec` fails only if there is no memory for the stack or if the arguments
do not fit on it. Otherwise `a1` points to an array of pointers to copies of the strings, which lie
on the stack without overlap.
-/

namespace Xv6.Exec

open Vm
open Vm.Image (Building)

variable {T : Type} [DecidableEq T] [Fintype T] {L : Layout} {t : T} {p q : Proc} {U : Multiset ℕ}
  {file path : List UInt8} {argv : List (List UInt8)}

/-- Memory holds the bytes `l` from `a` on. -/
def HasBytes (f : ℕ → UInt8) (a : ℕ) (l : List UInt8) : Prop := ∀ i c, l[i]? = some c → f (a + i) = c

/-- The stack of `q` from `sp` on holds the arguments: the words at `sp` are pointers to the strings,
followed by 0. -/
structure ArgBlock (argv : List (List UInt8)) (f : ℕ → UInt8) (base top sp : ℕ) (ps : List ℕ) :
    Prop where
  aligned : sp % 16 = 0
  base_le : base ≤ sp
  le_top : sp + 8 * (argv.length + 1) ≤ top
  length : ps.length = argv.length
  array : HasBytes f sp (uint64Bytes (ps ++ [0]))
  string : ∀ x ∈ argv.zip ps, HasBytes f x.2 (x.1 ++ [0])
  inside : ∀ x ∈ argv.zip ps, sp + 8 * (argv.length + 1) ≤ x.2 ∧ x.2 + x.1.length + 1 ≤ top
  apart : (argv.zip ps).Pairwise fun x y => y.2 + y.1.length + 1 ≤ x.2

theorem hasBytes_put (f : ℕ → UInt8) (a : ℕ) (l : List UInt8) : HasBytes (Cells.put f a l) a l := by
  intro i c hi
  apply Cells.put_of_mem (Nat.le_add_right _ _)
  rw [Nat.add_sub_cancel_left]
  exact hi

/-- The block that `execStack` makes. -/
theorem argBlock_of_fits {base top : ℕ} (f : ℕ → UInt8) (hal : top % 16 = 0) (hbase : base ≤ top)
    (hfit : blockSize argv ≤ top - base) :
    ArgBlock argv (Cells.put (store argv top f) (top - blockSize argv)
      (uint64Bytes (ptrs argv top ++ [0]))) base top (top - blockSize argv) (ptrs argv top) := by
  have hspace := argSpace_mod argv
  have hblock : blockSize argv = argSpace argv + up16 ((argv.length + 1) * 8) := rfl
  have hup : (argv.length + 1) * 8 ≤ up16 ((argv.length + 1) * 8) ∧
      up16 ((argv.length + 1) * 8) % 16 = 0 := by
    unfold up16
    omega
  have hlen : (uint64Bytes (ptrs argv top ++ [0])).length = (argv.length + 1) * 8 := by
    rw [length_uint64Bytes, List.length_append, length_ptrs, List.length_singleton]
    ring
  have hbounds := ptrs_bounds hal (show argSpace argv ≤ top by omega)
  refine ⟨by omega, by omega, by omega, length_ptrs argv top, hasBytes_put _ _ _, ?_, ?_,
    ptrs_pairwise hal (by omega)⟩
  · intro x hx i c hi
    have := hbounds x hx
    rw [Cells.put_of_ge (by omega)]
    exact store_string (by omega) x hx i c hi
  · intro x hx
    have := hbounds x hx
    omega

/-- **The argument block of `exec`**: once the segments are loaded, `kexec` returns -1 if and only if
there is no memory for the stack or the strings and the array do not fit on it; otherwise it returns
`argc`, with `sp` and `a1` at a well-formed block, and no byte below the stack was written. -/
theorem exec_args (s : St T) (h : Inv L U s.vm) (hp : s.vm.proc t = some p)
    (hfile : file.length < 2 ^ 32) (hcount : argv.length < maxArg)
    (hargv : ∀ arg ∈ argv, arg.length < pgsize) {r sz : ℕ} {s₁ : Vm.St T}
    (hload : load L p file s.vm = .ok (some (r, sz), s₁)) :
    ∃ n s', kexec L t p path file argv s = .ok (n, s') ∧
      (n = -1 ↔ s₁.free.length < (s₁.tbl r).need (Finset.Ico (npages sz) (npages sz + 2)) ∨
        userStack * pgsize < blockSize argv) ∧
      (n ≠ -1 → n = argv.length ∧ ∃ q sp ps, s'.vm.proc t = some q ∧
        q.sz = (npages sz + 1) * pgsize + userStack * pgsize ∧
        reg (s'.vm.mem q.trapframe) spOff = sp ∧ reg (s'.vm.mem q.trapframe) a1Off = sp ∧
        ArgBlock argv (umem s'.vm q).byte ((npages sz + 1) * pgsize) q.sz sp ps ∧
        ∀ a < (npages sz + 1) * pgsize,
          (umem s'.vm q).byte a = (umem s₁ (Image.as p r sz)).byte a) := by
  have hf := h.freeOk
  obtain ⟨o, s₁', he₁, -, -, hsome⟩ := load_exact (p := p) hf hfile
  obtain ⟨rfl, rfl⟩ := Prod.mk.inj (Except.ok.inj (hload.symm.trans he₁))
  obtain ⟨hb, -⟩ := hsome r sz rfl
  rw [← noRoom_iff hf hb]
  obtain ⟨n, s', he, hi, hres⟩ := kexec_exact path h hp hfile hargv
  refine ⟨n, s', he, ?_⟩
  rcases hres with ⟨rfl, -, -, -, hwhy⟩ | ⟨rfl, r', sz', sz1, sp, s₁', s₂, hroom, hx⟩
  · refine ⟨⟨fun _ => ?_, fun _ => rfl⟩, fun hn => absurd rfl hn⟩
    rcases hwhy r sz s₁ hload with hno | hfit
    · exact .inl hno
    · right
      by_contra hle
      exact hfit ⟨not_lt.1 hle, hcount.le⟩
  · obtain ⟨hx', rfl⟩ := Prod.mk.inj (Except.ok.inj (hload.symm.trans hx.load))
    obtain ⟨rfl, rfl⟩ := Prod.mk.inj (Option.some.inj hx')
    have hst := hx.stacked
    have hfit := hst.fits.1
    have hsz1 : sz1 = (npages sz + 1) * pgsize + userStack * pgsize := by
      rw [hst.size]
      unfold userStack
      ring
    refine ⟨⟨fun hn => by omega, fun hn => ?_⟩, fun _ => ⟨rfl, Image.as p r sz1, sp, ptrs argv sz1, ?_⟩⟩
    · rcases hn with hn | hn
      · exact absurd hn hroom
      · omega
    have hbyte : (umem s'.vm (Image.as p r sz1)).byte = Cells.put (store argv sz1
        (umem s₁ (Image.as p r sz)).byte) sp (uint64Bytes (ptrs argv sz1 ++ [0])) := by
      rw [hx.committed.umem, hst.byte]
    refine ⟨by rw [hx.committed.proc, Function.update_self], hsz1, hx.committed.sp_reg,
      hx.committed.a1, ?_, fun a ha => ?_⟩
    · rw [hbyte, hst.sp_eq]
      exact argBlock_of_fits _ (by rw [hst.size]; unfold pgsize; omega) (by rw [hsz1]; omega)
        (by rw [hsz1]; omega)
    · rw [hx.committed.umem, hst.byte_low ha]

/-- One argument, the string `a`. -/
theorem exec_args_one : ∃ s' q sp ps,
    kexec someLayout 0 firstProc [] (oneByte [64, 0, 0, 0, 0, 0, 0, 0]) [[97]] firstState =
      .ok (1, s') ∧ s'.vm.proc 0 = some q ∧ reg (s'.vm.mem q.trapframe) a1Off = sp ∧
    ArgBlock [[97]] (umem s'.vm q).byte (2 * pgsize) q.sz sp ps := by
  obtain ⟨s₁, hload⟩ := exists_of_returned (show returned (load someLayout firstProc
    (oneByte [64, 0, 0, 0, 0, 0, 0, 0]) firstState.vm) = some (some (phystop - 5 * pgsize, 1)) by
      decide +kernel)
  obtain ⟨s', he⟩ := exists_of_returned (show returned (kexec someLayout 0 firstProc []
    (oneByte [64, 0, 0, 0, 0, 0, 0, 0]) [[97]] firstState) = some 1 by decide +kernel)
  obtain ⟨n, s'', he', -, hok⟩ := exec_args firstState firstState_inv firstState_proc (by decide)
    (show [[97]].length < maxArg by decide) (by decide) hload
  obtain ⟨rfl, rfl⟩ := Prod.mk.inj (Except.ok.inj (he.symm.trans he'))
  obtain ⟨-, q, sp, ps, hq, -, -, ha1, hblock, -⟩ := hok (by decide)
  exact ⟨s', q, sp, ps, he, hq, ha1, hblock⟩

/-- A file with no program headers. -/
def emptyElf : List UInt8 := [0x7F, 0x45, 0x4C, 0x46] ++ List.replicate 60 0

/-- The first process when eight pages are all there is. -/
def smallState : St (Fin 64) := userState somePages

/-- The program is loaded and no arguments have to fit, but there is no memory for the stack. -/
theorem exec_no_memory : Reach someLayout Below (kinit somePages) smallState.vm ∧
    ∃ r sz s₁ s', load someLayout firstProc emptyElf smallState.vm = .ok (some (r, sz), s₁) ∧
    blockSize [] ≤ userStack * pgsize ∧
    kexec someLayout 0 firstProc [] emptyElf [] smallState = .ok (-1, s') := by
  obtain ⟨s₁, hload⟩ := exists_of_returned (show returned (load someLayout firstProc emptyElf
    smallState.vm) = some (some (phystop - 5 * pgsize, 0)) by decide)
  obtain ⟨s', he⟩ := exists_of_returned (show returned (kexec someLayout 0 firstProc [] emptyElf []
    smallState) = some (-1) by decide +kernel)
  exact ⟨.step (c := .userinit 0) .refl trivial trivial rfl, _, _, s₁, s', hload, by decide, he⟩

end Xv6.Exec
