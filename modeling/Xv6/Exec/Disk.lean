import Xv6.Exec.Image
import Xv6.Fs.Path
import Xv6.Vm.Fork

/-!
# `exec` of a path

`kexec` of `exec.c` with the file system: the inode is found by `namei`, its contents are read by
`readi`, and the whole lookup and the loading are one transaction. The address spaces and the names of
the processes are passed along. On the contents of the inode, `kexec` does what `Exec.kexec` does, and
the file system is left as it was.
-/

namespace Xv6.Exec.Disk

open Threads
open Fs (Sb Env P Ip SlotId Name Does Goes Quiet Held Sound Kept Gained Crowded OnlyTable hand readi
  readi_does readResult elements)
open Vm (Proc K pgsize u64 walkaddr putBytes uvmalloc flags2perm procPagetable procFreepagetable
  execStack)

variable {T : Type} {V : Env T} {sb : Sb}

/-- Run code of the kernel on `e`. -/
def run {σ α : Type} (x : Kern σ α) (e : σ) : P V (α × σ) :=
  match x e with
  | .ok r => return r
  | .error m => Fs.panic m

/-- The loop of `loadseg`, for `n` more pages. -/
def loadsegLoop (sb : Sb) (pagetable va offset sz : ℕ) :
    ℕ → ℕ → Ip → Vm.St T → P V (Bool × Ip × Vm.St T)
  | 0, _, ip, vm => return (true, ip, vm)
  | n + 1, i, ip, vm => do
    let (pa, vm) ← run (walkaddr pagetable (u64 (va + i))) vm
    if pa = 0 then Fs.panic "loadseg: address should exist"
    else do
      let len := if sz - i < pgsize then sz - i else pgsize
      let (r, l, ip) ← readi sb (fun _ => true) ip ((offset + i) % 2 ^ 32) len
      let vm := vm.setMem pa (putBytes (vm.mem pa) 0 l)
      if r ≠ len then return (false, ip, vm)
      else loadsegLoop sb pagetable va offset sz n (i + pgsize) ip vm

def loadseg (sb : Sb) (pagetable va : ℕ) (ip : Ip) (offset sz : ℕ) (vm : Vm.St T) :
    P V (Bool × Ip × Vm.St T) :=
  loadsegLoop sb pagetable va offset sz ((sz + pgsize - 1) / pgsize) 0 ip vm

/-- The loop of `kexec` over the program headers, for `n` more headers from `off` on. -/
def loadLoop (sb : Sb) (L : Vm.Layout) (pagetable : ℕ) :
    ℕ → ℕ → ℕ → Ip → Vm.St T → P V ((Bool × ℕ) × Ip × Vm.St T)
  | 0, _, sz, ip, vm => return ((true, sz), ip, vm)
  | n + 1, off, sz, ip, vm => do
    let (r, l, ip) ← readi sb (fun _ => true) ip off proghdrSize
    if r ≠ proghdrSize then return ((false, sz), ip, vm)
    else do
      let ph := Proghdr.ofBytes l
      if ph.type ≠ elfProgLoad then
        loadLoop sb L pagetable n ((off + proghdrSize) % 2 ^ 32) sz ip vm
      else if ph.memsz < ph.filesz then return ((false, sz), ip, vm)
      else if u64 (ph.vaddr + ph.memsz) < ph.vaddr then return ((false, sz), ip, vm)
      else if ph.vaddr % pgsize ≠ 0 then return ((false, sz), ip, vm)
      else do
        let (sz1, vm) ←
          run (uvmalloc L pagetable sz (u64 (ph.vaddr + ph.memsz)) (flags2perm ph.flags)) vm
        if sz1 = 0 then return ((false, sz), ip, vm)
        else do
          let (ok, ip, vm) ←
            loadseg sb pagetable ph.vaddr ip (ph.off % 2 ^ 32) (ph.filesz % 2 ^ 32) vm
          if ok then loadLoop sb L pagetable n ((off + proghdrSize) % 2 ^ 32) sz1 ip vm
          else return ((false, sz1), ip, vm)

/-- `kexec` until the file is closed; returns the page table and `sz`, or frees the table. -/
def load (sb : Sb) (L : Vm.Layout) (p : Proc) (ip : Ip) (vm : Vm.St T) :
    P V (Option (ℕ × ℕ) × Elfhdr × Ip × Vm.St T) := do
  let (r, l, ip) ← readi sb (fun _ => true) ip 0 elfhdrSize
  let elf := Elfhdr.ofBytes l
  if r ≠ elfhdrSize then return (none, elf, ip, vm)
  else if elf.magic ≠ elfMagic then return (none, elf, ip, vm)
  else do
    let (o, vm) ← run (procPagetable L p.trapframe) vm
    match o with
    | none => return (none, elf, ip, vm)
    | some pagetable => do
      let ((ok, sz), ip, vm) ← loadLoop sb L pagetable elf.phnum (elf.phoff % 2 ^ 32) 0 ip vm
      if ok then return (some (pagetable, sz), elf, ip, vm)
      else do
        let (_, vm) ← run (procFreepagetable L pagetable sz) vm
        return (none, elf, ip, vm)

/-- `kexec` from where the file has been closed. -/
def finish [DecidableEq T] (L : Vm.Layout) (t : T) (p : Proc) (path : List UInt8)
    (argv : List (List UInt8)) (image : Option (ℕ × ℕ)) (entry : ℕ) (e : St T) : P V (ℤ × St T) :=
  match image with
  | none => return (-1, e)
  | some (pagetable, sz) => do
    let (stack, vm) ← run (execStack L p pagetable sz argv) e.vm
    match stack with
    | none => return (-1, { e with vm := vm })
    | some (sz1, sp) => do
      let (_, e) ← run (commit L t p path pagetable sz1 sp entry) { e with vm := vm }
      return (argv.length, e)

/-- `kexec` of process `p` in slot `t`. `name` is what the buffer in `namei` holds before. -/
def kexec [DecidableEq T] (sb : Sb) (L : Vm.Layout) (t : T) (p : Proc) (cwd : SlotId)
    (path : List UInt8) (name : Name) (argv : List (List UInt8)) (e : St T) : P V (ℤ × St T) := do
  Fs.beginOp
  let r ← Fs.namei sb cwd path name
  match r with
  | none => do
    Fs.endOp
    return (-1, e)
  | some k => do
    let ip ← Fs.ilock k
    let (image, elf, ip, vm) ← load sb L p ip e.vm
    Fs.iunlockput ip
    Fs.endOp
    finish L t p path argv image elf.entry { e with vm := vm }

/-! ## Loading the contents of an inode -/

variable [DecidableEq T] {ly : Fs.Layout} {t : T} {s : Fs.St T V.X} {B : Finset ℕ}

/-- The program returns `r` and leaves the file system as it was. -/
abbrev Gives {α : Type} (sb : Sb) (ly : Fs.Layout) (t : T) (q : P V α) (s : Fs.St T V.X)
    (B : Finset ℕ) (r : α) : Prop :=
  Does sb ly t q s B fun x s' B' => x = r ∧ s' = s ∧ B' = B

theorem gives_ret {α : Type} (r : α) : Gives sb ly t (.ret r : P V α) s B r := .ret ⟨rfl, rfl, rfl⟩

theorem gives_bind {α β : Type} {q : P V α} {f : α → P V β} {r : α} {r' : β}
    (h : Gives sb ly t q s B r) (hf : Gives sb ly t (f r) s B r') : Gives sb ly t (q >>= f) s B r' := by
  refine .bind (h.mono ?_)
  rintro x s' B' ⟨rfl, rfl, rfl⟩
  exact hf

theorem run_gives {σ α : Type} {x : Kern σ α} {e : σ} {r : α × σ} (h : x e = .ok r) :
    Gives sb ly t (run x e : P V (α × σ)) s B r := by
  unfold run
  rw [h]
  exact gives_ret r

section

variable {ip : Ip} {file : List UInt8} (hf : (s.view ip).Filled ip.inum) (hr : s.reading t = false)
  (hfile : file = (s.view ip).content ip.inum)
include hf hr hfile

theorem readi_gives {off n : ℕ} (hoff : off < 2 ^ 32) (hn : n < 2 ^ 32) :
    Gives sb ly t (readi sb (fun _ => true) ip off n) s B
      ((readResult file off n).length, readResult file off n, ip) := by
  subst hfile
  exact readi_does hf hr hoff hn

theorem loadsegLoop_gives {pagetable va offset sz : ℕ} (n : ℕ) :
    ∀ {i : ℕ} {vm : Vm.St T} {ok : Bool} {vm' : Vm.St T},
      Exec.loadsegLoop file pagetable va offset sz n i vm = .ok (ok, vm') →
      Gives sb ly t (loadsegLoop sb pagetable va offset sz n i ip vm) s B (ok, ip, vm') := by
  induction n with
  | zero =>
    intro i vm ok vm' h
    cases h
    exact gives_ret _
  | succ n ih =>
    intro i vm ok vm' h
    unfold Exec.loadsegLoop at h
    obtain ⟨pa, vm₁, hwalk, h⟩ := bind_eq_ok h
    refine gives_bind (run_gives hwalk) ?_
    dsimp only
    by_cases hpa : pa = 0
    · rw [if_pos hpa] at h
      cases h
    · rw [if_neg hpa] at h ⊢
      have hlen : (if sz - i < pgsize then sz - i else pgsize) < 2 ^ 32 := by
        unfold pgsize
        split_ifs <;> omega
      obtain ⟨⟨⟩, vm₂, hmod, h⟩ := bind_eq_ok h
      cases hmod
      refine gives_bind (readi_gives hf hr hfile (Nat.mod_lt _ (by decide)) hlen) ?_
      generalize (if sz - i < pgsize then sz - i else pgsize) = len at h ⊢
      dsimp only at h ⊢
      by_cases hl : (readResult file ((offset + i) % 2 ^ 32) len).length = len
      · rw [if_neg (not_not.2 hl)] at h
        rw [if_neg (not_not.2 (by exact_mod_cast hl))]
        exact ih h
      · rw [if_pos hl] at h
        rw [if_pos (by exact_mod_cast hl)]
        cases h
        exact gives_ret _

theorem loadLoop_gives {L : Vm.Layout} {pagetable : ℕ} (n : ℕ) :
    ∀ {off sz : ℕ} {vm : Vm.St T} {r : Bool × ℕ} {vm' : Vm.St T}, off < 2 ^ 32 →
      Exec.loadLoop L file pagetable n off sz vm = .ok (r, vm') →
      Gives sb ly t (loadLoop sb L pagetable n off sz ip vm) s B (r, ip, vm') := by
  induction n with
  | zero =>
    intro off sz vm r vm' _ h
    cases h
    exact gives_ret _
  | succ n ih =>
    intro off sz vm r vm' hoff h
    have hnext : (off + proghdrSize) % 2 ^ 32 < 2 ^ 32 := Nat.mod_lt _ (by decide)
    unfold Exec.loadLoop at h
    refine gives_bind (readi_gives hf hr hfile hoff (by decide)) ?_
    dsimp only at h ⊢
    generalize readResult file off proghdrSize = l at h ⊢
    by_cases hl : l.length = proghdrSize
    · rw [if_neg (not_not.2 hl)] at h
      rw [if_neg (not_not.2 (by exact_mod_cast hl))]
      generalize Proghdr.ofBytes l = ph at h ⊢
      by_cases htype : ph.type = elfProgLoad
      · rw [if_neg (not_not.2 htype)] at h ⊢
        by_cases hmem : ph.memsz < ph.filesz
        · rw [if_pos hmem] at h ⊢
          cases h
          exact gives_ret _
        · rw [if_neg hmem] at h ⊢
          by_cases hwrap : u64 (ph.vaddr + ph.memsz) < ph.vaddr
          · rw [if_pos hwrap] at h ⊢
            cases h
            exact gives_ret _
          · rw [if_neg hwrap] at h ⊢
            by_cases hal : ph.vaddr % pgsize ≠ 0
            · rw [if_pos hal] at h ⊢
              cases h
              exact gives_ret _
            · rw [if_neg hal] at h ⊢
              obtain ⟨sz1, vm₁, halloc, h⟩ := bind_eq_ok h
              refine gives_bind (run_gives halloc) ?_
              dsimp only
              by_cases h0 : sz1 = 0
              · rw [if_pos h0] at h ⊢
                cases h
                exact gives_ret _
              · rw [if_neg h0] at h ⊢
                obtain ⟨ok, vm₂, hseg, h⟩ := bind_eq_ok h
                refine gives_bind (loadsegLoop_gives hf hr hfile _ hseg) ?_
                dsimp only
                cases ok with
                | true => exact ih hnext h
                | false =>
                  cases h
                  exact gives_ret _
      · rw [if_pos htype] at h ⊢
        exact ih hnext h
    · rw [if_pos hl] at h
      rw [if_pos (by exact_mod_cast hl)]
      cases h
      exact gives_ret _

theorem load_gives {L : Vm.Layout} {p : Proc} {vm vm' : Vm.St T} {o : Option (ℕ × ℕ)}
    (h : Exec.load L p file vm = .ok (o, vm')) :
    Gives sb ly t (load sb L p ip vm) s B
      (o, Elfhdr.ofBytes (readResult file 0 elfhdrSize), ip, vm') := by
  unfold Exec.load at h
  refine gives_bind (readi_gives hf hr hfile (by decide) (by decide)) ?_
  dsimp only at h ⊢
  generalize readResult file 0 elfhdrSize = l at h ⊢
  by_cases hl : l.length = elfhdrSize
  · rw [if_neg (not_not.2 hl)] at h
    rw [if_neg (not_not.2 (by exact_mod_cast hl))]
    generalize helf : Elfhdr.ofBytes l = elf at h ⊢
    by_cases hmagic : elf.magic = elfMagic
    · rw [if_neg (not_not.2 hmagic)] at h ⊢
      obtain ⟨r, vm₁, hpt, h⟩ := bind_eq_ok h
      refine gives_bind (run_gives hpt) ?_
      cases r with
      | none =>
        cases h
        exact gives_ret _
      | some pagetable =>
        obtain ⟨⟨ok, sz⟩, vm₂, hloop, h⟩ := bind_eq_ok h
        refine gives_bind (loadLoop_gives hf hr hfile _ (Nat.mod_lt _ (by decide)) hloop) ?_
        cases ok with
        | true =>
          cases h
          exact gives_ret _
        | false =>
          obtain ⟨⟨⟩, vm₃, hfree, h⟩ := bind_eq_ok h
          cases h
          exact gives_bind (run_gives hfree) (gives_ret _)
    · rw [if_pos hmagic] at h ⊢
      cases h
      exact gives_ret _
  · rw [if_pos hl] at h
    rw [if_pos (by exact_mod_cast hl)]
    cases h
    exact gives_ret _

end

/-! ## The whole of `kexec` -/

theorem liftVm_eq_ok {α : Type} {x : K T α} {e e' : St T} {a : α} (h : liftVm x e = .ok (a, e')) :
    ∃ vm, x e.vm = .ok (a, vm) ∧ e' = { e with vm := vm } := by
  unfold liftVm at h
  cases hx : x e.vm with
  | error m =>
    rw [hx] at h
    cases h
  | ok r =>
    rw [hx] at h
    cases h
    exact ⟨r.2, rfl, rfl⟩

variable {L : Vm.Layout} {p : Proc} {path : List UInt8} {argv : List (List UInt8)} {e : St T}
  {cwd : SlotId}

/-- The inode that `kexec` reads. -/
abbrev target (s : Fs.St T V.X) (cwd : SlotId) (path : List UInt8) : Option ℕ :=
  s.disk.walk (s.start cwd path) (elements path)

/-- What `kexec` on the contents of a file consists of. -/
theorem finish_gives (V : Env T) (sb : Sb) (ly : Fs.Layout) {file : List UInt8} {r : ℤ × St T}
    (hk : Exec.kexec L t p path file argv e = .ok r) :
    ∃ o vm, Exec.load L p file e.vm = .ok (o, vm) ∧ ∀ (s : Fs.St T V.X) (B : Finset ℕ),
      Gives sb ly t (finish L t p path argv o (Elfhdr.ofBytes (readResult file 0 elfhdrSize)).entry
        { e with vm := vm } : P V (ℤ × St T)) s B r := by
  obtain ⟨n, e'⟩ := r
  unfold Exec.kexec at hk
  obtain ⟨o, e₁, hload, hk⟩ := bind_eq_ok hk
  obtain ⟨vm, hload', rfl⟩ := liftVm_eq_ok hload
  refine ⟨o, vm, hload', fun s B => ?_⟩
  cases o with
  | none =>
    cases hk
    exact gives_ret _
  | some x =>
    obtain ⟨pagetable, sz⟩ := x
    obtain ⟨o, e₂, hstack, hk⟩ := bind_eq_ok hk
    obtain ⟨vm₂, hstack', rfl⟩ := liftVm_eq_ok hstack
    refine gives_bind (run_gives hstack') ?_
    cases o with
    | none =>
      cases hk
      exact gives_ret _
    | some x =>
      obtain ⟨sz1, sp⟩ := x
      obtain ⟨⟨⟩, e₃, hcommit, hk⟩ := bind_eq_ok hk
      cases hk
      exact gives_bind (run_gives hcommit) (gives_ret _)

theorem kexec_goes (h : Quiet sb t s) (hcwd : 0 < (s.inode cwd).ref) (hpath : (0 : UInt8) ∉ path)
    (name : Name) (hok : ∀ i, target s cwd path = some i →
      ∃ r, Exec.kexec L t p path (s.disk.content i) argv e = .ok r) :
    Goes sb ly t (kexec sb L t p cwd path name argv e) s B
      (fun r s' _ => Gained sb t s s' none ∧ (target s cwd path = none ∧ r = (-1, e) ∨
        ∃ i, target s cwd path = some i ∧
          Exec.kexec L t p path (s.disk.content i) argv e = .ok r))
      fun m _ => m = "iget: no inodes" ∧ Crowded s.inode 0 := by
  have hh₀ : Held t s.inode 0 ∅ { s with op := Function.update s.op t (s.op t + 1) } := h.held.setOp _
  refine .bind (.act rfl (.ret ?_))
  refine .bind ((Fs.namei_goes hh₀ h.sound h.kept hcwd hpath name).mono ?_ fun _ _ hE => hE)
  rintro r s₁ B₁ ⟨hh₁, htarget, ho₁, rfl⟩
  have hdisk₁ : s₁.disk = s.disk := ho₁.disk
  cases r with
  | none =>
    refine .bind (.act rfl (.ret (.ret ⟨?_, .inl ⟨htarget.symm, rfl⟩⟩)))
    exact h.gained (o := none) (hh₁.setOp _) ho₁.endOp
  | some k =>
    obtain ⟨r, hr⟩ := hok _ htarget.symm
    refine .bind ((Fs.ilock_held hh₁ (Finset.notMem_empty k) hh₁.pos).goes.mono ?_ fun _ _ hE => hE)
    rintro ip s₂ B₂ ⟨rfl, hh₂, hi₂, ho₂, rfl⟩
    rw [← Fs.ip_congr (hi₂ k) ho₂.din]
    have hdisk₂ : s₂.disk = s.disk := by rw [ho₂.disk, hdisk₁]
    have hinum : (s₂.ip k).inum = (s₁.inode k).inum := hi₂ k
    have hlive : s₂.disk.Live (s₂.ip k).inum := hh₂.live k hh₂.pos
    have hfilled : (s₂.view (s₂.ip k)).Filled (s₂.ip k).inum := by
      rw [Fs.view_ip, hdisk₂]
      rw [hdisk₂] at hlive
      exact h.sound.filled _ hlive
    have hcontent : s.disk.content (s₁.inode k).inum = (s₂.view (s₂.ip k)).content (s₂.ip k).inum := by
      rw [Fs.view_ip, hdisk₂, hinum]
    obtain ⟨o, vm, hload, hrest⟩ := finish_gives V sb ly hr
    refine .bind ((load_gives hfilled hh₂.reading hcontent hload).goes.mono ?_ fun _ _ hE => hE)
    rintro x s₃ B₃ ⟨rfl, rfl, rfl⟩
    have hmem : (s₃.ip k).slot ∈ insert k (∅ : Finset SlotId) := Finset.mem_insert_self _ _
    have hkept : Kept s.inode s₃.disk := by
      rw [hdisk₂]
      exact h.kept
    refine .bind ((Fs.iunlockput_held hh₂ hkept hmem rfl).goes.mono ?_ fun _ _ hE => hE)
    rintro - s₄ B₄ ⟨hh₄, -, ho₄, rfl⟩
    rw [show (insert k (∅ : Finset SlotId)).erase (s₃.ip k).slot = ∅ by
      show (insert k (∅ : Finset SlotId)).erase k = ∅
      simp] at hh₄
    refine .bind (.act rfl (.ret ?_))
    refine (hrest _ _).goes.mono ?_ fun _ _ hE => hE
    rintro x s₅ B₅ ⟨rfl, rfl, rfl⟩
    refine ⟨?_, .inr ⟨_, htarget.symm, hr⟩⟩
    exact h.gained (o := none) (hh₄.setOp _) ((ho₁.trans ho₂).trans ho₄).endOp

/-! ## All or nothing -/

/-- Nothing of process `p` in slot `t` has changed, and the same pages are free. -/
structure Unchanged (t : T) (p : Proc) (e e' : St T) : Prop where
  proc : e'.vm.proc t = e.vm.proc t
  tbl : e'.vm.tbl p.pagetable = e.vm.tbl p.pagetable
  umem : Vm.umem e'.vm p = Vm.umem e.vm p
  trapframe : e'.vm.mem p.trapframe = e.vm.mem p.trapframe
  name : e'.name t = e.name t
  free : (e'.vm.free : Multiset ℕ) = e.vm.free

theorem Unchanged.refl (t : T) (p : Proc) (e : St T) : Unchanged t p e e :=
  ⟨rfl, rfl, rfl, rfl, rfl, rfl⟩

variable [Fintype T] {U : Multiset ℕ}

theorem unchanged_of_restored {e' : St T} (h : Vm.Inv L U e.vm) (hp : e.vm.proc t = some p)
    (hr : Vm.Restored e.vm e'.vm) (hu : Vm.Unwritten e.vm e'.vm) (hn : e'.name = e.name) :
    Unchanged t p e e' := by
  have htbl : e'.vm.tbl p.pagetable = e.vm.tbl p.pagetable :=
    hr.tbl _ (h.notMem_free hp Vm.mem_owns_pagetable)
  refine ⟨by rw [hr.proc], htbl, ?_, hu _ (h.notMem_free hp Vm.mem_owns_trapframe), by rw [hn],
    hr.free⟩
  refine Vm.umem_of_maps (h.ok t p hp).2.sz_le htbl fun pa hm => hu pa ?_
  exact Vm.Space.maps_notMem_free (h.space hp) hm

/-- **`exec` is all or nothing.** For every path and whatever the file contains, `kexec` returns, or
it panics because the inode table is full; no code that works on page tables panics. The file system
is as it was: the reference to the inode has been dropped, and the transaction that `kexec` has begun
has been ended. If `kexec` returns -1, then nothing of the process has changed, and the pages that it
has allocated are free again. -/
theorem exec_all_or_nothing (sb : Sb) (L : Vm.Layout) (U : Multiset ℕ) (t : T) (p : Proc)
    (s : Fs.St T V.X) (hs : Quiet sb t s) (cwd : SlotId) (hcwd : 0 < (s.inode cwd).ref)
    (path : List UInt8) (hpath : (0 : UInt8) ∉ path) (name : Name) (argv : List (List UInt8))
    (hargv : ∀ arg ∈ argv, arg.length < pgsize) (e : St T) (he : Vm.Inv L U e.vm)
    (hp : e.vm.proc t = some p) :
    Ends (Fs.exec sb) t (kexec sb L t p cwd path name argv e) s
      (fun r s' => OnlyTable s s' ∧ s'.op = s.op ∧ (∀ i, s'.refs i = s.refs i) ∧ Quiet sb t s' ∧
        Vm.Inv L U r.2.vm ∧ (r.1 = -1 → Unchanged t p e r.2))
      fun m _ => m = "iget: no inodes" ∧ Crowded s.inode 0 := by
  have hlen : ∀ i, target s cwd path = some i → (s.disk.content i).length < 2 ^ 32 := by
    intro i hi
    have hlive := Fs.walk_live hs.sound (Fs.start_live hs.held hs.sound hcwd path) hi
    have := (hs.sound.filled i hlive).size_le
    rw [Fs.length_content]
    exact lt_of_le_of_lt this (by decide)
  have hexact : ∀ i, target s cwd path = some i →
      Tot (Exec.kexec L t p path (s.disk.content i) argv) e _ := fun i hi =>
    kexec_exact path he hp (hlen i hi) hargv
  have hgoes : Goes sb ⟨0, 0⟩ t (kexec sb L t p cwd path name argv e) s ∅ _ _ :=
    kexec_goes hs hcwd hpath name fun i hi => by
      obtain ⟨n, e', hk, -⟩ := hexact i hi
      exact ⟨_, hk⟩
  refine Goes.ends (hgoes.mono ?_ fun _ _ hE => hE)
  rintro ⟨n, e'⟩ s' - ⟨hg, hr⟩
  have hrefs : ∀ i, s'.refs i = s.refs i := by
    intro i
    rw [hg.refs i, if_neg (by simp), add_zero]
  refine ⟨hg.only, hg.only.elsewhere.op, hrefs, hg.quiet, ?_⟩
  rcases hr with ⟨-, hr⟩ | ⟨i, hi, hk⟩
  · obtain ⟨rfl, rfl⟩ := Prod.mk.inj hr
    exact ⟨he, fun _ => .refl t p e'⟩
  · obtain ⟨n', e'', hk', hinv, hcases⟩ := hexact i hi
    obtain ⟨rfl, rfl⟩ := Prod.mk.inj (Except.ok.inj (hk.symm.trans hk'))
    refine ⟨hinv, fun hn => ?_⟩
    rcases hcases with ⟨-, hres, hun, hname, -⟩ | ⟨hn', -⟩
    · exact unchanged_of_restored he hp hres hun hname
    · have hn : n = -1 := hn
      omega

/-! ## A directory is no program -/

/-- The state after `userinit`, with room for one process. -/
def loneState : St Unit where
  vm := match Vm.step Vm.someLayout (.userinit ()) (Vm.kinit sixteen) with
    | .ok (_, s) => s
    | .error _ => Vm.kinit []
  name := fun _ => []

theorem loneState_inv : Vm.Inv Vm.someLayout sixteen loneState.vm :=
  Vm.reach_inv (by decide) (by decide) (.step (c := .userinit ()) .refl trivial trivial rfl)

/-- `kexec("/")` -/
abbrev execRoot : P Fs.noTables (ℤ × St Unit) :=
  kexec Fs.smallDisk Vm.someLayout () firstProc Fs.firstSlot [Fs.slash] [] [] loneState

theorem exec_all_or_nothing_root : ∃ r s', solo (Fs.exec Fs.smallDisk) () execRoot Fs.atRoot =
    some (r, s') ∧ r.1 = -1 ∧ Unchanged () firstProc loneState r.2 := by
  have hrun : ((solo (Fs.exec Fs.smallDisk) () execRoot Fs.atRoot).map fun x => x.1.1) = some (-1) := by
    decide
  obtain ⟨⟨r, s'⟩, hs, hr⟩ := Option.map_eq_some_iff.1 hrun
  have hall := exec_all_or_nothing Fs.smallDisk Vm.someLayout sixteen () firstProc Fs.atRoot
    Fs.atRoot_quiet Fs.firstSlot (by decide) [Fs.slash] (by decide) [] [] (by simp) loneState
    loneState_inv rfl
  exact ⟨r, s', hs, hr, (hall.solo hs).2.2.2.2.2 hr⟩

end Xv6.Exec.Disk
