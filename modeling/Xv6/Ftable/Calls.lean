import Xv6.Ftable.Procs

/-!
# File-table reference counting

Each call keeps the invariant; in a state with no call in progress nothing is in hand, and the counts
are those of the descriptors.
-/

namespace Xv6.Ftable

open Function Finset Xv6.Threads Xv6.Files

variable {s s' : St} {G : Tid → Gh} {t u : Tid} {g q : Gh} {f : Fid} {fd : Fd} {a d : List Fid}
  {α : Type} {Q : α → Gh → Prop}

/-- What a process has in hand between calls. -/
structure Rest (g : Gh) : Prop where
  hold : g.hold = []
  debt : g.debt = []
  fresh : g.fresh = []
  ends : g.ends = []
  pages : g.pages = []
  inodes : g.inodes = []
  child : g.child = none

theorem ok_fileclose {Q : Unit → Gh → Prop} (hb : g.busy) (hE : g.ends = [])
    (hI : g.inodes = []) (hA : g.pages = []) (hnd : g.fresh.Nodup)
    (hpos : ∀ s G, Inv s G → G t = g → g.debt.count f + 1 ≤ own s t f + g.hold.count f)
    (hcount : ∀ x, g.hold.count x + d.count x = a.count x + g.debt.count x + [f].count x)
    (hle : ∀ s G, Inv s G → G t = g → ∀ x, d.count x ≤ own s t x)
    (hQ : Q () { g with hold := a, debt := d, fresh := g.fresh.erase f }) :
    FtOk t (fileclose f) g Q := by
  have hset : ∀ e i, ({ g with
      hold := a, debt := d, fresh := g.fresh.erase f, ends := e, inodes := i } : Gh).settled =
      { g with hold := a, debt := d, fresh := g.fresh.erase f } := by
    intro e i
    exact Gh.settled_eq (g := { g with hold := a, debt := d, fresh := g.fresh.erase f }) hE hI hA
  have hclosed : ∀ ff e i, e = ff.elim [] ends → i = ff.elim [] inodes →
      FtOk t (closed ff) { g with
        hold := a, debt := d, fresh := g.fresh.erase f, ends := e, inodes := i } Q := by
    intro ff e i he hi
    rw [← Prog.bind_ret (closed ff)]
    refine ok_closed hb he hi hA ?_
    rw [hset]
    exact hQ
  refine ok_dropRef hb hpos hcount hle (hclosed none _ _ hE hI) (fun ff => hclosed (some ff) _ _ ?_ ?_) hnd
  · rw [hE, List.nil_append]
    rfl
  · rw [hI, List.nil_append]
    rfl

/-- Closing a file to which the call holds a reference. -/
theorem ok_fileclose_hold {Q : Unit → Gh → Prop} (hb : g.busy) (hE : g.ends = [])
    (hI : g.inodes = []) (hA : g.pages = []) (hnd : g.fresh.Nodup) (hd : g.debt = [])
    (hcount : ∀ x, g.hold.count x = a.count x + [f].count x)
    (hQ : Q () { g with hold := a, fresh := g.fresh.erase f }) : FtOk t (fileclose f) g Q := by
  refine ok_fileclose (d := g.debt) hb hE hI hA hnd (fun s G _ _ => ?_) (fun x => ?_) (fun s G _ _ x => ?_) hQ
  · have := hcount f
    rw [List.count_singleton_self] at this
    rw [hd, List.count_nil]
    omega
  · rw [hd, List.count_nil, hcount]
    omega
  · rw [hd]
    exact Nat.zero_le _

/-! ## The calls -/

theorem ok_sysDup (fd : Fd) : FtOk t (sysDup fd) { busy := true } fun _ g => Rest g := by
  refine ok_argfd rfl (fun x hx => Or.inl hx) ⟨rfl, rfl, rfl, rfl, rfl, rfl, rfl⟩ fun f => ?_
  refine ok_fdalloc (a := []) (d := [f]) rfl rfl (fun y => ?_) (fun y => ?_)
    ⟨rfl, rfl, rfl, rfl, rfl, rfl, rfl⟩ fun fd' hne => ?_
  · simp
  · simp
  refine ok_filedup (a := []) (d := []) rfl List.not_mem_nil (fun s G hi hG => ?_) (fun x => ?_)
    (fun x => Nat.zero_le _) ⟨rfl, rfl, rfl, rfl, rfl, rfl, rfl⟩
  · -- two descriptors refer to the file
    have h1 : s.ofile t fd = some f := hi.procs.saw t (fd, f) (by rw [hG]; simp)
    have h2 : s.ofile t fd' = some f := hi.procs.saw t (fd', f) (by rw [hG]; simp)
    have hfd : fd' ≠ fd := fun he => hne (fd, f) (by simp) he.symm
    have hc := own_clear h1 f
    have h3 : (s.setOfile t fd none).ofile t fd' = some f := by
      rw [setOfile_self, if_neg hfd]
      exact h2
    have hp := own_pos h3
    rw [List.count_singleton_self] at hc ⊢
    omega
  · simp

theorem ok_sysClose (fd : Fd) : FtOk t (sysClose fd) { busy := true } fun _ g => Rest g := by
  refine ok_argfd rfl (fun x hx => Or.inl hx) ⟨rfl, rfl, rfl, rfl, rfl, rfl, rfl⟩ fun f => ?_
  refine ok_clearFd (f := f) (a := [f]) (v := []) (c := 0) rfl (by simp) (fun y => ?_) nofun
    (fun x hx => absurd hx (Nat.not_lt_zero _)) ?_
  · simp
  exact ok_fileclose_hold (a := []) rfl rfl rfl rfl List.nodup_nil rfl (fun x => by simp)
    ⟨rfl, rfl, rfl, rfl, rfl, rfl, rfl⟩

theorem ok_sysOpen (found : Option (ℕ × Bool)) (readable writable : Bool) :
    FtOk t (sysOpen found readable writable) { busy := true } fun _ g => Rest g := by
  cases found with
  | none => exact ⟨rfl, rfl, rfl, rfl, rfl, rfl, rfl⟩
  | some x =>
    refine ok_filealloc rfl rfl ⟨rfl, rfl, rfl, rfl, rfl, rfl, rfl⟩ fun f _ => ?_
    refine ok_fdalloc (a := []) (d := []) rfl rfl (fun y => by simp) (fun y => Nat.zero_le _) ?_ fun fd _ => ?_
    · refine ok_fileclose_hold (a := []) rfl rfl rfl rfl (List.nodup_singleton f) rfl
        (fun x => by simp) ⟨rfl, rfl, ?_, rfl, rfl, rfl, rfl⟩
      simp
    · exact ok_setFile rfl rfl ⟨rfl, rfl, rfl, rfl, rfl, rfl, rfl⟩

theorem ok_pipealloc {Q : Option (Fid × Fid) → Gh → Prop} (page : Option ℕ)
    (hn : Q none { busy := true })
    (hs : ∀ f0 f1, f1 ≠ f0 → Q (some (f0, f1)) { busy := true, hold := [f1, f0] }) :
    FtOk t (pipealloc page) { busy := true } Q := by
  refine ok_filealloc rfl rfl hn fun f0 _ => ?_
  refine ok_filealloc rfl rfl ?_ fun f1 hf1 => ?_
  · show FtOk t (fileclose f0 >>= fun _ => pure none) _ Q
    refine ok_bind (ok_fileclose_hold (a := []) rfl rfl rfl rfl (List.nodup_singleton f0) rfl
      (fun x => by simp) ?_)
    simpa using hn
  have hne : f1 ≠ f0 := by simpa using hf1
  refine ok_kalloc rfl rfl ?_ fun pi => ok_makePipe rfl hne rfl rfl (hs f0 f1 hne)
  show FtOk t (fileclose f0 >>= fun _ => fileclose f1 >>= fun _ => pure none) _ Q
  refine ok_bind (ok_fileclose_hold (a := [f1]) rfl rfl rfl rfl (by simp [hne]) rfl (fun x => ?_) ?_)
  · exact count_pair ..
  refine ok_bind (ok_fileclose_hold (a := []) rfl rfl rfl rfl ?_ rfl (fun x => by simp) ?_)
  · simp [hne]
  · simpa [List.erase_cons, hne] using hn

/-- The descriptors of a pipe that could not be returned are closed. -/
theorem ok_closeBoth {rf wf : Fid} {W : List (Fd × Fid)} :
    FtOk t (fileclose rf >>= fun _ => fileclose wf) { busy := true, hold := [wf, rf], saw := W }
      fun _ g => Rest g := by
  refine ok_bind (ok_fileclose_hold (a := [wf]) rfl rfl rfl rfl List.nodup_nil rfl (fun x => ?_) ?_)
  · exact count_pair ..
  · exact ok_fileclose_hold (a := []) rfl rfl rfl rfl List.nodup_nil rfl (fun x => by simp)
      ⟨rfl, rfl, rfl, rfl, rfl, rfl, rfl⟩

theorem ok_sysPipe (page : Option ℕ) (copy : Bool) :
    FtOk t (sysPipe page copy) { busy := true } fun _ g => Rest g := by
  refine ok_bind (ok_pipealloc page ⟨rfl, rfl, rfl, rfl, rfl, rfl, rfl⟩ fun rf wf hne => ?_)
  refine ok_fdalloc (f := rf) (a := [wf]) (d := []) rfl rfl (fun y => ?_) (fun y => Nat.zero_le _)
    ok_closeBoth fun fd0 _ => ?_
  · show [rf].count y + [wf].count y + 0 = [wf, rf].count y + 0
    rw [count_pair]
    omega
  refine ok_fdalloc (f := wf) (a := []) (d := []) rfl rfl (fun y => by simp) (fun y => Nat.zero_le _) ?_
    fun fd1 hfd => ?_
  · refine ok_clearFd (f := rf) (a := [wf, rf]) (v := []) (c := 0) rfl (by simp) (fun y => ?_) nofun
      (fun x hx => absurd hx (Nat.not_lt_zero _)) ok_closeBoth
    show [wf, rf].count y + 0 = [wf].count y + [rf].count y
    rw [count_pair]
    omega
  have hfd : fd1 ≠ fd0 := fun he => hfd (fd0, rf) (by simp) he.symm
  cases copy
  · refine ok_clearFd (f := rf) (a := [rf]) (v := [(fd1, wf)]) (c := 0) rfl (by simp) (fun y => by simp)
      (fun x hx => ?_) (fun x hx => absurd hx (Nat.not_lt_zero _)) ?_
    · rw [List.mem_singleton.1 hx]
      exact ⟨by simp, hfd⟩
    refine ok_clearFd (f := wf) (a := [wf, rf]) (v := []) (c := 0) rfl (by simp) (fun y => ?_) nofun
      (fun x hx => absurd hx (Nat.not_lt_zero _)) ok_closeBoth
    show [wf, rf].count y + 0 = [rf].count y + [wf].count y
    rw [count_pair]
    omega
  · exact ⟨rfl, rfl, rfl, rfl, rfl, rfl, rfl⟩

/-- A list of the descriptors from number `i` on. -/
def From (i : ℕ) : List Fd → Prop
  | [] => i = nofile
  | fd :: l => fd.val = i ∧ From (i + 1) l

instance decidableFrom : ∀ i l, Decidable (From i l)
  | i, [] => inferInstanceAs (Decidable (i = nofile))
  | i, fd :: l =>
    have := decidableFrom (i + 1) l
    inferInstanceAs (Decidable (fd.val = i ∧ From (i + 1) l))

theorem from_finRange : From 0 (List.finRange nofile) := by decide

theorem ok_dupFiles {np : Tid} {l : List Fd} {i j : ℕ} {W : List (Fd × Fid)} (hl : From i l) (hj : j ≤ i) :
    FtOk t (dupFiles np l) { busy := true, child := some (np, j), saw := W }
      fun _ g => ∃ c W, g = { busy := true, child := some (np, c), saw := W } := by
  induction l generalizing i j W with
  | nil => exact ⟨j, W, rfl⟩
  | cons fd l ih =>
    obtain ⟨rfl, hl⟩ := hl
    refine ok_argfd rfl (fun x hx => Or.inl hx) (ih hl (by omega)) fun f => ?_
    refine ok_filedup (a := [f]) (d := []) rfl List.not_mem_nil (fun s G hi hG => ?_) (fun x => by simp)
      (fun x => Nat.zero_le _) ?_
    · have : s.ofile t fd = some f := hi.procs.saw t (fd, f) (by rw [hG]; simp)
      have := own_pos this
      simp
      omega
    exact ok_setChild (a := []) (v := []) rfl rfl rfl rfl hj rfl nofun (ih hl le_rfl)

theorem ok_kfork (mem : Bool) : FtOk t (kfork mem) { busy := true } fun _ g => Rest g := by
  refine ok_allocproc rfl ⟨rfl, rfl, rfl, rfl, rfl, rfl, rfl⟩ fun np => ?_
  show FtOk t (dupFiles np (List.finRange nofile) >>= fun _ => perform (.start np)) _ _
  refine ok_bind (ok_mono (ok_dupFiles from_finRange le_rfl) ?_)
  rintro - g ⟨c, W, rfl⟩
  exact ok_start rfl rfl ⟨rfl, rfl, rfl, rfl, rfl, rfl, rfl⟩

theorem ok_closeFiles {l : List Fd} {i : ℕ} (hl : From i l) :
    FtOk t (closeFiles l) { busy := true, closed := i } fun _ g => g = { busy := true, closed := nofile } := by
  induction l generalizing i with
  | nil =>
    obtain rfl : i = nofile := hl
    rfl
  | cons fd l ih =>
    obtain ⟨rfl, hl⟩ := hl
    have hc : ∀ x : Fd, x.val < fd.val + 1 → x.val < fd.val ∨ x = fd := by
      intro x hx
      rcases Nat.lt_succ_iff_lt_or_eq.1 hx with h | h
      · exact Or.inl h
      · exact Or.inr (Fin.ext h)
    refine ok_argfd rfl hc (ih hl) fun f => ?_
    show FtOk t (fileclose f >>= fun _ => clearFd fd >>= fun _ => closeFiles l) _ _
    refine ok_bind (ok_fileclose (a := []) (d := [f]) rfl rfl rfl rfl List.nodup_nil
      (fun s G hi hG => ?_) (fun x => by simp) (fun s G hi hG x => ?_) ?_)
    · have : s.ofile t fd = some f := hi.procs.saw t (fd, f) (by rw [hG]; simp)
      have := own_pos this
      simp
      omega
    · have hs : s.ofile t fd = some f := hi.procs.saw t (fd, f) (by rw [hG]; simp)
      have := own_clear hs x
      omega
    · exact ok_clearFd (f := f) (a := []) (v := []) rfl (by simp) (fun y => by simp) nofun hc (ih hl)

theorem ok_kexit : FtOk t kexit { busy := true } fun _ g => Rest g := by
  refine ok_bind (ok_mono (ok_closeFiles from_finRange) ?_)
  rintro - g rfl
  exact ok_exit rfl ⟨rfl, rfl, rfl, rfl, rfl, rfl, rfl⟩

/-- Every call keeps the invariant. -/
theorem ok_code (c : Call) : FtOk t (code c) { busy := true } fun _ g => Rest g := by
  cases c with
  | «open» found readable writable => exact ok_sysOpen found readable writable
  | dup fd => exact ok_sysDup fd
  | close fd => exact ok_sysClose fd
  | pipe page copy => exact ok_sysPipe page copy
  | fork mem => exact ok_kfork mem
  | exit => exact ok_kexit
  | wait pp => exact ok_reap rfl ⟨rfl, rfl, rfl, rfl, rfl, rfl, rfl⟩

/-! ## Runs -/

theorem Inv.start (hi : Inv s G) (hr : Rest (G t)) (hl : s.proc t = .live) :
    Inv s (update G t { busy := true }) := by
  have hp := hi.procs
  refine hi.step (hi.refs_same hr.hold.symm hr.debt.symm rfl (fun _ => rfl) hi.refs.zero)
    (hi.fresh_same hr.hold.symm hr.debt.symm hr.fresh.symm rfl fun _ _ _ => rfl)
    (hi.ends_same hr.ends.symm hr.pages.symm (fun _ => rfl) rfl rfl rfl rfl)
    (hi.inodes_same hr.inodes.symm (fun _ => rfl) rfl rfl) ?_ (fun _ _ h => h) (fun h => absurd hl h)
  rw [update_same Gh.child hr.child.symm]
  refine ⟨hp.empty, hp.embryo, hp.rest, hp.once, fun u x hx => ?_, fun u x hx => ?_⟩
  · by_cases hu : u = t
    · rw [hu, update_self] at hx
      cases hx
    · rw [update_of_ne hu] at hx
      exact hp.saw u x hx
  · by_cases hu : u = t
    · rw [hu, update_self] at hx
      exact absurd hx (Nat.not_lt_zero _)
    · rw [update_of_ne hu] at hx
      exact hp.closed u x hx

theorem total_nil {ι β : Type} [Fintype ι] [DecidableEq β] (a : β) : total (fun _ : ι => ([] : List β)) a = 0 :=
  sum_eq_zero fun _ _ => rfl

theorem inv_boot (t : Tid) : Inv (boot t) fun _ => {} := by
  have hown : ∀ u f, own (boot t) u f = 0 := by
    intro u f
    show Multiset.count f (held univ fun _ => none) = 0
    rw [held_none fun _ _ => rfl]
    rfl
  have hnet : ∀ u f, net (boot t) (fun _ => []) (fun _ => []) u f = 0 := by
    intro u f
    unfold net
    rw [hown]
    rfl
  constructor
  · exact ⟨fun f => (sum_eq_zero fun u _ => hnet u f).symm, fun _ _ => Nat.zero_le _, fun _ _ => rfl⟩
  · exact ⟨nofun, nofun, nofun⟩
  · intro pi
    refine Or.inl ⟨rfl, total_nil pi, fun w => ?_, rfl⟩
    show total (fun _ : Fid => []) _ + total (fun _ : Tid => []) _ = 0
    rw [total_nil, total_nil]
  · intro ip
    show 0 = 0 + total (fun _ : Fid => []) _ + total (fun _ : Tid => []) _
    rw [total_nil, total_nil]
  · exact ⟨fun _ _ _ => rfl, nofun, nofun, nofun, nofun, fun _ _ h => absurd h (Nat.not_lt_zero _)⟩
  · exact fun _ _ => rfl

theorem reach_good {t : Tid} {c : Conf Tid Act Ret St} (h : Reach sys (idle (boot t)) c) :
    Good sys Inv (fun _ => False) Rest c := by
  refine reach_ok (fun s G u c hi hr hm => ⟨_, hi.start hr hm.1, ok_code c⟩) ?_ h
  exact ⟨fun _ => {}, inv_boot t, fun _ => ⟨rfl, rfl, rfl, rfl, rfl, rfl, rfl⟩⟩

/-! ## States without a call in progress -/

theorem total_eq_zero {ι β : Type} [Fintype ι] [DecidableEq β] {F : ι → List β} (h : ∀ i, F i = [])
    (a : β) : total F a = 0 := by
  rw [funext h]
  exact total_nil a

theorem Inv.descriptor (hi : Inv s G) (hr : ∀ u, Rest (G u)) (hty : (s.file f).type ≠ .none) :
    ∃ u fd, s.ofile u fd = some f := by
  have href : (s.file f).ref ≠ 0 := fun h0 => hty (hi.refs.zero f h0)
  rw [hi.refs.ref] at href
  obtain ⟨u, -, hu⟩ := exists_ne_zero_of_sum_ne_zero href
  rw [net_eq, (hr u).hold, (hr u).debt] at hu
  have hpos : 0 < own s u f := Nat.pos_of_ne_zero fun h0 => hu (by rw [h0]; rfl)
  obtain ⟨fd, -, hfd⟩ := exists_of_mem_held (Multiset.count_pos.1 hpos)
  exact ⟨u, fd, hfd⟩

theorem sum_own (s : St) (f : Fid) :
    ∑ u, own s u f = (univ.filter fun x : Tid × Fd => s.ofile x.1 x.2 = some f).card := by
  rw [card_filter, Fintype.sum_prod_type]
  apply sum_congr rfl
  intro u _
  unfold own held
  rw [Multiset.count_sum']
  apply sum_congr rfl
  intro fd _
  cases s.ofile u fd with
  | none => rfl
  | some x =>
    rw [Option.toList_some, Multiset.coe_count, List.count_singleton]
    simp

/-- File `f` is an end of the pipe in page `pi`. -/
def IsEnd (s : St) (pi : ℕ) (w : Bool) (f : Fid) : Prop :=
  (s.file f).type = .pipe ∧ (s.file f).pipe = pi ∧ (s.file f).writable = w

theorem mem_ends {x : File} {pi : ℕ} {w : Bool} :
    ⟨pi, w⟩ ∈ ends x ↔ x.type = .pipe ∧ x.pipe = pi ∧ x.writable = w := by
  unfold ends
  split_ifs with h
  · simp [h, eq_comm]
  · simp [h]

theorem total_pos {ι β : Type} [Fintype ι] [DecidableEq β] {F : ι → List β} {a : β} :
    total F a ≠ 0 ↔ ∃ i, a ∈ F i := by
  unfold total
  rw [Ne, sum_eq_zero_iff]
  simp [List.count_eq_zero]

/-- The number of files for an inode. -/
theorem total_inodes (s : St) (ip : ℕ) :
    total (fun f => inodes (s.file f)) ip = (univ.filter fun f =>
      ((s.file f).type = .inode ∨ (s.file f).type = .device) ∧ (s.file f).ip = ip).card := by
  rw [card_filter]
  apply sum_congr rfl
  intro f _
  show (inodes (s.file f)).count ip = _
  unfold inodes
  by_cases h : (s.file f).type = .inode ∨ (s.file f).type = .device
  · rw [if_pos h, List.count_singleton]
    simp [h]
  · rw [if_neg h]
    simp [h]

/-- No run of the calls panics. In every state of every run in which no call is in progress: the
reference count of a file is the number of descriptors that refer to it, and a file without one has
no type; an end of a pipe is open exactly if a descriptor refers to it, a page is a pipe exactly if
a descriptor refers to one of its ends, and was freed as often as it was allocated otherwise; and an
inode was put once for each file that was opened for it and has no descriptor left. -/
theorem file_table_counts (t₀ : Tid) :
    (∀ m s, ¬ Reach sys (idle (boot t₀)) (.dead m s)) ∧
    ∀ s thr, Reach sys (idle (boot t₀)) (.live s thr) → (∀ t, thr t = .ret ()) →
      (∀ f, (s.file f).ref = (univ.filter fun x : Tid × Fd => s.ofile x.1 x.2 = some f).card) ∧
      (∀ f, (s.file f).ref = 0 → (s.file f).type = .none) ∧
      (∀ pi w, s.live pi = true →
        ((s.pipe pi).isOpen w = true ↔ ∃ t fd f, s.ofile t fd = some f ∧ IsEnd s pi w f)) ∧
      (∀ pi, s.live pi = true ↔ ∃ t fd f w, s.ofile t fd = some f ∧ IsEnd s pi w f) ∧
      (∀ pi, s.kallocs pi = s.kfrees pi + if s.live pi then 1 else 0) ∧
      (∀ ip, s.opened ip = s.puts ip + (univ.filter fun f =>
        ((s.file f).type = .inode ∨ (s.file f).type = .device) ∧ (s.file f).ip = ip).card) ∧
      ∀ f, (s.file f).type ≠ .none → ∃ t fd, s.ofile t fd = some f := by
  refine ⟨fun m s h => (reach_good h).1, fun s thr h hidle => ?_⟩
  obtain ⟨G, hi, hok⟩ := reach_good h
  have hr : ∀ u, Rest (G u) := by
    intro u
    have := hok u
    rw [hidle u] at this
    exact this
  have hE : ∀ e, total (fun u => (G u).ends) e = 0 := total_eq_zero fun u => (hr u).ends
  have hA : ∀ pi, total (fun u => (G u).pages) pi = 0 := total_eq_zero fun u => (hr u).pages
  have hI : ∀ ip, total (fun u => (G u).inodes) ip = 0 := total_eq_zero fun u => (hr u).inodes
  -- a descriptor refers to an end exactly if some file is that end
  have hend : ∀ pi w, endCount s (fun u => (G u).ends) ⟨pi, w⟩ ≠ 0 ↔
      ∃ t fd f, s.ofile t fd = some f ∧ IsEnd s pi w f := by
    intro pi w
    unfold endCount
    rw [hE, Nat.add_zero, total_pos]
    constructor
    · rintro ⟨f, hf⟩
      rw [mem_ends] at hf
      obtain ⟨u, fd, hfd⟩ := hi.descriptor hr (f := f) (by rw [hf.1]; nofun)
      exact ⟨u, fd, f, hfd, hf⟩
    · rintro ⟨-, -, f, -, hf⟩
      exact ⟨f, mem_ends.2 hf⟩
  refine ⟨fun f => ?_, hi.refs.zero, fun pi w hl => ?_, fun pi => ?_, fun pi => ?_, fun ip => ?_,
    fun f hty => hi.descriptor hr hty⟩
  · rw [hi.refs.ref, ← sum_own]
    apply sum_congr rfl
    intro u _
    rw [net_eq, (hr u).hold, (hr u).debt]
    rfl
  · rw [← hend]
    rcases hi.ends pi with ⟨hl', -⟩ | ⟨-, hn, -⟩ | ⟨-, -, hc, -⟩
    · rw [hl'] at hl
      cases hl
    · rw [hA] at hn
      cases hn
    · rw [show endCount s (fun u => (G u).ends) ⟨pi, w⟩ = _ from hc w]
      split_ifs with ho <;> simp [ho]
  · rcases hi.ends pi with ⟨hl', -, hz, -⟩ | ⟨-, hn, -⟩ | ⟨hl, -, hc, ⟨w, ho⟩, -⟩
    · rw [hl']
      refine iff_of_false nofun ?_
      rintro ⟨t, fd, f, w, hf⟩
      exact (hend pi w).2 ⟨t, fd, f, hf⟩ (hz w)
    · rw [hA] at hn
      cases hn
    · refine iff_of_true hl ?_
      have hone : endCount s (fun u => (G u).ends) ⟨pi, w⟩ = _ := hc w
      rw [if_pos ho] at hone
      obtain ⟨t, fd, f, hf⟩ := (hend pi w).1 (by rw [hone]; nofun)
      exact ⟨t, fd, f, w, hf⟩
  · rcases hi.ends pi with ⟨hl, -, -, hk⟩ | ⟨hl, -, -, hk⟩ | ⟨hl, -, -, -, hk⟩ <;> rw [hl, hk] <;> rfl
  · have := hi.inodes ip
    rw [hI, total_inodes] at this
    exact this

/-- A process has opened a file: one descriptor refers to it. -/
theorem file_table_counts_open : ∃ (t₀ : Tid) (f : Fid) (s : St) (thr : Tid → P Unit),
    Reach sys (idle (boot t₀)) (.live s thr) ∧ (∀ t, thr t = .ret ()) ∧ (s.file f).ref = 1 ∧
    (univ.filter fun x : Tid × Fd => s.ofile x.1 x.2 = some f).card = 1 := by
  let t₀ : Tid := ⟨0, by decide⟩
  let f : Fid := ⟨0, by decide⟩
  have hrun : ∃ s thr, Reach sys (idle (boot t₀)) (.live s thr) ∧ (∀ t, thr t = .ret ()) ∧
      (s.file f).ref = 1 := by
    have h1 : Reach sys (idle (boot t₀)) _ :=
      .single (.call (t := t₀) (c := .open (some (7, false)) true false) rfl ⟨rfl, nofun⟩)
    have h2 := h1.tail (.act (t := t₀) rfl trivial rfl)
    have h3 := h2.tail (.act (t := t₀) rfl trivial rfl)
    have h4 := h3.tail (.act (t := t₀) rfl trivial rfl)
    refine ⟨_, _, h4, fun t => ?_, rfl⟩
    by_cases ht : t = t₀
    · subst ht
      rfl
    · simp only [update_of_ne ht]
  obtain ⟨s, thr, hs, ht, hf⟩ := hrun
  exact ⟨t₀, f, s, thr, hs, ht, hf, (((file_table_counts t₀).2 s thr hs ht).1 f).symm.trans hf⟩

/-- **No file outlives its pipe.** In every state of every run, also in the middle of calls, the pipe of
a file is not freed and its end is open, and a process that has exited has no descriptors. -/
theorem pipe_files_live {t₀ : Tid} {s : St} {thr : Tid → P Unit}
    (h : Reach sys (idle (boot t₀)) (.live s thr)) :
    (∀ f pi w, IsEnd s pi w f → s.live pi = true ∧ (s.pipe pi).isOpen w = true) ∧
    ∀ u, s.proc u = .unused ∨ s.proc u = .zombie → ∀ fd, s.ofile u fd = none := by
  obtain ⟨G, hi, -⟩ := reach_good h
  refine ⟨fun f pi w hf => ?_, hi.procs.empty⟩
  have hpos : endCount s (fun u => (G u).ends) ⟨pi, w⟩ ≠ 0 := by
    have := (total_pos (F := fun f => ends (s.file f))).2 ⟨f, mem_ends.2 hf⟩
    unfold endCount
    omega
  rcases hi.ends pi with ⟨-, -, hz, -⟩ | ⟨-, -, hz, -⟩ | ⟨hl, -, hc, -⟩
  · exact absurd (hz w) hpos
  · exact absurd (hz w) hpos
  · exact ⟨hl, by_contra fun ho => hpos ((hc w).trans (if_neg ho))⟩

theorem pipe_files_live_made : ∃ s f, IsEnd s 5 true f ∧ s.live 5 = true := by
  let t : Tid := ⟨0, by decide⟩
  have h1 : Reach sys (idle (boot t)) _ :=
    .single (.call (t := t) (c := .pipe (some 5) true) rfl ⟨rfl, by simp⟩)
  have h2 := h1.tail (.act (t := t) rfl trivial rfl)
  have h3 := h2.tail (.act (t := t) rfl trivial rfl)
  have h4 := h3.tail (.act (t := t) rfl trivial rfl)
  have h5 := h4.tail (.act (t := t) rfl trivial rfl)
  have he := (pipe_files_live h5).1 ⟨1, by decide⟩ 5 true ⟨rfl, rfl, rfl⟩
  exact ⟨_, ⟨1, by decide⟩, ⟨rfl, rfl, rfl⟩, he.1⟩

end Xv6.Ftable
