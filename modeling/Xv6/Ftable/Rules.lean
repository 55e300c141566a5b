import Xv6.Ftable.Inv

/-!
# What the actions of the file table do to its invariant
-/

namespace Xv6.Ftable

open Function Finset Xv6.Threads Xv6.Files

variable {s s' : St} {G : Tid → Gh} {t u : Tid} {g q : Gh} {f : Fid}
  {H D N : Tid → List Fid} {a d n : List Fid} {E : Tid → List PipeEnd} {A I : Tid → List ℕ}
  {α : Type} {Q : α → Gh → Prop}

/-! ## References -/

theorem own_congr (h : s'.ofile u = s.ofile u) : own s' u f = own s u f := by
  unfold own
  rw [h]

theorem net_other (hu : u ≠ t) (ho : s'.ofile u = s.ofile u) :
    net s' (update H t a) (update D t d) u f = net s H D u f := by
  unfold net
  rw [own_congr ho, update_of_ne hu, update_of_ne hu]

theorem net_self :
    net s (update H t a) (update D t d) t f =
      own s t f + a.count f - d.count f := by
  unfold net
  rw [update_self, update_self]

theorem net_eq : net s (fun u => (G u).hold) (fun u => (G u).debt) t f =
    own s t f + (G t).hold.count f - (G t).debt.count f := rfl

theorem count_ne {β : Type} [DecidableEq β] {x y : β} (h : x ≠ y) : [y].count x = 0 :=
  List.count_eq_zero.2 fun hm => h (List.mem_singleton.1 hm)

theorem count_pair {β : Type} [DecidableEq β] (x y z : β) :
    [y, z].count x = [y].count x + [z].count x := by
  rw [show [y, z] = [y] ++ [z] from rfl, List.count_append]

theorem own_pos {fd : Fd} (h : s.ofile t fd = some f) : 1 ≤ own s t f :=
  Multiset.one_le_count_iff_mem.2 (mem_held (mem_univ fd) h)

theorem own_fill {fd : Fd} (hnone : s.ofile t fd = none) (x : Fid) :
    own (s.setOfile t fd (some f)) t x = own s t x + [f].count x := by
  have hh := held_fill (f := s.ofile t) (mem_univ fd) hnone f
  unfold own St.setOfile
  show Multiset.count x (held _ (update s.ofile t _ t)) = _
  rw [update_self, hh, Multiset.count_add, ← Multiset.coe_singleton, Multiset.coe_count]

theorem own_clear {fd : Fd} (hsome : s.ofile t fd = some f) (x : Fid) :
    own (s.setOfile t fd none) t x + [f].count x = own s t x := by
  have hh := held_take (f := s.ofile t) (mem_univ fd) hsome
  unfold own St.setOfile
  show Multiset.count x (held _ (update s.ofile t _ t)) + _ = _
  rw [update_self, ← hh, Multiset.count_add, ← Multiset.coe_singleton, Multiset.coe_count]

theorem setOfile_other {fd : Fd} {x : Option Fid} (hu : u ≠ t) :
    (s.setOfile t fd x).ofile u = s.ofile u := update_of_ne hu ..

theorem setOfile_self {fd fd' : Fd} {x : Option Fid} :
    (s.setOfile t fd x).ofile t fd' = if fd' = fd then x else s.ofile t fd' := by
  unfold St.setOfile
  show update s.ofile t _ t fd' = _
  rw [update_self]
  exact update_apply ..

theorem setFile_self {x : File} : (s.setFile f x).file f = x := update_self ..

theorem setFile_ne {x : File} {y : Fid} (h : y ≠ f) : (s.setFile f x).file y = s.file y :=
  update_of_ne h ..

theorem setFile_congr {β : Type} (p : File → β) {x : File} (h : p x = p (s.file f)) (y : Fid) :
    p ((s.setFile f x).file y) = p (s.file y) := by
  by_cases hy : y = f
  · subst hy
    rw [setFile_self, h]
  · rw [setFile_ne hy]

namespace Refs

theorem net_le (h : Refs s H D) (u : Tid) (f : Fid) : net s H D u f ≤ (s.file f).ref := by
  rw [h.ref]
  exact single_le_sum (f := fun u => net s H D u f) (fun _ _ => Nat.zero_le _)
    (mem_univ u)

theorem change (h : Refs s H D) (hofile : ∀ u ≠ t, s'.ofile u = s.ofile u)
    (href : ∀ x, (s'.file x).ref + (own s t x + (H t).count x - (D t).count x) =
      (s.file x).ref + (own s' t x + a.count x - d.count x))
    (hdebt : ∀ x, d.count x ≤ own s' t x)
    (hzero : ∀ x, (s'.file x).ref = 0 → (s'.file x).type = .none) :
    Refs s' (update H t a) (update D t d) := by
  constructor
  · intro x
    have hother : ∀ u ≠ t, net s' (update H t a) (update D t d) u x =
        net s H D u x := fun u hu => net_other hu (hofile u hu)
    have hsum := sum_change t hother
    rw [net_self, ← h.ref, show net s H D t x = own s t x + (H t).count x - (D t).count x from rfl]
      at hsum
    have hr := href x
    omega
  · intro u x
    by_cases hu : u = t
    · subst hu
      rw [update_self]
      exact hdebt x
    · rw [update_of_ne hu, own_congr (hofile u hu)]
      exact h.debt u x
  · exact hzero

end Refs

namespace Fresh

/-- A file that process `t` refers to is no fresh file of another process. -/
theorem notMem (h : Fresh s H D N) (hpos : 1 ≤ net s H D t f) (hu : u ≠ t) : f ∉ N u := by
  intro hf
  have := h.mine u f hf t (Ne.symm hu)
  omega

theorem change (h : Fresh s H D N) (hofile : ∀ u ≠ t, s'.ofile u = s.ofile u)
    (hfile : ∀ u ≠ t, ∀ x ∈ N u, s'.file x = s.file x ∧
      own s' t x + a.count x - d.count x = 0)
    (hmine : ∀ x ∈ n, (s'.file x).type = .none ∧ (s'.file x).ref = 1 ∧
      ∀ u ≠ t, net s H D u x = 0) :
    Fresh s' (update H t a) (update D t d) (update N t n) := by
  have hcase : ∀ w, ∀ x ∈ update N t n w, (w = t ∧ x ∈ n) ∨ (w ≠ t ∧ x ∈ N w) := by
    intro w x hx
    by_cases hw : w = t
    · subst hw
      rw [update_self] at hx
      exact Or.inl ⟨rfl, hx⟩
    · rw [update_of_ne hw] at hx
      exact Or.inr ⟨hw, hx⟩
  constructor
  · intro w x hx'
    obtain ⟨rfl, hx⟩ | ⟨hw, hx⟩ := hcase w x hx'
    · exact (hmine x hx).1
    · rw [(hfile w hw x hx).1]
      exact h.type w x hx
  · intro w x hx'
    obtain ⟨rfl, hx⟩ | ⟨hw, hx⟩ := hcase w x hx'
    · exact (hmine x hx).2.1
    · rw [(hfile w hw x hx).1]
      exact h.ref w x hx
  · intro w x hx' u hu
    obtain ⟨rfl, hx⟩ | ⟨hw, hx⟩ := hcase w x hx'
    · rw [net_other hu (hofile u hu)]
      exact (hmine x hx).2.2 u hu
    · by_cases hut : u = t
      · subst hut
        rw [net_self]
        exact (hfile w hw x hx).2
      · rw [net_other hut (hofile u hut)]
        exact h.mine w x hx u hu

end Fresh

/-! ## Pipe ends, inodes and processes -/

theorem Ends.congr {E' : Tid → List PipeEnd} {A' : Tid → List ℕ} (h : Ends s E A)
    (hcount : ∀ e, endCount s' E' e = endCount s E e) (hA : A' = A)
    (hpipe : s'.pipe = s.pipe) (hlive : s'.live = s.live) (ha : s'.kallocs = s.kallocs)
    (hf : s'.kfrees = s.kfrees) : Ends s' E' A' := by
  intro pi
  simp only [hcount, hA, hpipe, hlive, ha, hf]
  exact h pi

theorem total_setFile {β : Type} [DecidableEq β] (p : File → List β) (y : File) (a : β) :
    total (fun x => p ((s.setFile f y).file x)) a + (p (s.file f)).count a =
      total (fun x => p (s.file x)) a + (p y).count a := by
  have hne : ∀ x ≠ f, p ((s.setFile f y).file x) = p (s.file x) := fun x hx => by
    rw [setFile_ne hx]
  have := total_change f hne a
  rwa [setFile_self] at this

/-- A step by which process `t` changes what it has in hand: the parts that it concerns are given,
the others are as they were. -/
theorem Inv.step (hi : Inv s G)
    (refs : Refs s' (update (fun u => (G u).hold) t q.hold)
      (update (fun u => (G u).debt) t q.debt))
    (fresh : Fresh s' (update (fun u => (G u).hold) t q.hold)
      (update (fun u => (G u).debt) t q.debt)
      (update (fun u => (G u).fresh) t q.fresh))
    (ends : Ends s' (update (fun u => (G u).ends) t q.ends)
      (update (fun u => (G u).pages) t q.pages))
    (inodes : Inodes s' (update (fun u => (G u).inodes) t q.inodes))
    (procs : Procs s' (update (fun u => (G u).child) t q.child)
      (update (fun u => (G u).saw) t q.saw)
      (update (fun u => (G u).closed) t q.closed))
    (hlive : ∀ u ≠ t, s'.proc u ≠ .live → s.proc u ≠ .live)
    (ht : s'.proc t ≠ .live → q = {}) : Inv s' (update G t q) := by
  constructor
  · rw [update_proj Gh.hold, update_proj Gh.debt]; exact refs
  · rw [update_proj Gh.hold, update_proj Gh.debt, update_proj Gh.fresh]; exact fresh
  · rw [update_proj Gh.ends, update_proj Gh.pages]; exact ends
  · rw [update_proj Gh.inodes]; exact inodes
  · rw [update_proj Gh.child, update_proj Gh.saw, update_proj Gh.closed]; exact procs
  · intro u hu
    by_cases hut : u = t
    · subst hut
      rw [update_self]
      exact ht hu
    · rw [update_of_ne hut]
      exact hi.live u (hlive u hut hu)

theorem update_same {β : Type} (p : Gh → β) (h : p q = p (G t)) :
    update (fun u => p (G u)) t (p q) = fun u => p (G u) := by
  rw [h]
  exact update_eq_self t _

namespace Inv

theorem refs_same (hi : Inv s G) (hh : q.hold = (G t).hold) (hd : q.debt = (G t).debt)
    (hofile : s'.ofile = s.ofile) (href : ∀ x, (s'.file x).ref = (s.file x).ref)
    (hzero : ∀ x, (s'.file x).ref = 0 → (s'.file x).type = .none) :
    Refs s' (update (fun u => (G u).hold) t q.hold)
      (update (fun u => (G u).debt) t q.debt) := by
  have hown : ∀ u x, own s' u x = own s u x := fun u x => own_congr (by rw [hofile])
  refine hi.refs.change (fun u _ => by rw [hofile]) (fun x => ?_) (fun x => ?_) hzero
  · rw [href, hown, hh, hd]
  · rw [hown, hd]
    exact hi.refs.debt t x

theorem fresh_same (hi : Inv s G) (hh : q.hold = (G t).hold) (hd : q.debt = (G t).debt)
    (hn : q.fresh = (G t).fresh) (hofile : s'.ofile = s.ofile)
    (hfile : ∀ u, ∀ x ∈ (G u).fresh, s'.file x = s.file x) :
    Fresh s' (update (fun u => (G u).hold) t q.hold)
      (update (fun u => (G u).debt) t q.debt)
      (update (fun u => (G u).fresh) t q.fresh) := by
  have hown : ∀ u x, own s' u x = own s u x := fun u x => own_congr (by rw [hofile])
  refine hi.fresh.change (fun u _ => by rw [hofile]) (fun u hu x hx => ⟨hfile u x hx, ?_⟩)
    fun x hx => ?_
  · rw [hown, hh, hd]
    exact hi.fresh.mine u x hx t (Ne.symm hu)
  · rw [hn] at hx
    rw [hfile t x hx]
    exact ⟨hi.fresh.type t x hx, hi.fresh.ref t x hx, hi.fresh.mine t x hx⟩

theorem ends_same (hi : Inv s G) (he : q.ends = (G t).ends) (hp : q.pages = (G t).pages)
    (hfile : ∀ x, Ftable.ends (s'.file x) = Ftable.ends (s.file x)) (hpipe : s'.pipe = s.pipe)
    (hlive : s'.live = s.live) (ha : s'.kallocs = s.kallocs) (hf : s'.kfrees = s.kfrees) :
    Ends s' (update (fun u => (G u).ends) t q.ends)
      (update (fun u => (G u).pages) t q.pages) := by
  rw [update_same Gh.ends he, update_same Gh.pages hp]
  refine hi.ends.congr (fun e => ?_) rfl hpipe hlive ha hf
  unfold endCount
  rw [funext hfile]

theorem inodes_same (hi : Inv s G) (h : q.inodes = (G t).inodes)
    (hfile : ∀ x, Ftable.inodes (s'.file x) = Ftable.inodes (s.file x))
    (ho : s'.opened = s.opened) (hp : s'.puts = s.puts) :
    Inodes s' (update (fun u => (G u).inodes) t q.inodes) := by
  rw [update_same Gh.inodes h]
  intro ip
  rw [ho, hp, funext hfile]
  exact hi.inodes ip

theorem procs_same (hi : Inv s G) (hc : q.child = (G t).child) (hw : q.saw = (G t).saw)
    (hk : q.closed = (G t).closed) (hproc : s'.proc = s.proc) (hofile : s'.ofile = s.ofile) :
    Procs s' (update (fun u => (G u).child) t q.child)
      (update (fun u => (G u).saw) t q.saw)
      (update (fun u => (G u).closed) t q.closed) := by
  rw [update_same Gh.child hc, update_same Gh.saw hw, update_same Gh.closed hk]
  have hp := hi.procs
  constructor
  · rw [hproc, hofile]; exact hp.empty
  · rw [hproc]; exact hp.embryo
  · rw [hofile]; exact hp.rest
  · exact hp.once
  · rw [hofile]; exact hp.saw
  · rw [hofile]; exact hp.closed

end Inv

theorem Inv.proc_live (hi : Inv s G) (hb : (G t).busy) : s.proc t = .live := by
  by_contra hne
  rw [hi.live t hne] at hb
  cases hb

/-! ## Reading and allocating -/

theorem ok_argfd {fd : Fd} {k : Option Fid → P α} {c : ℕ} (hb : g.busy)
    (hc : ∀ x : Fd, x.val < c → x.val < g.closed ∨ x = fd)
    (hn : FtOk t (k none) { g with closed := c } Q)
    (hs : ∀ f, FtOk t (k (some f)) { g with saw := (fd, f) :: g.saw } Q) :
    FtOk t (.act (.argfd fd) k) g Q := by
  apply ok_done
  rintro s G hi rfl -
  have hl := hi.proc_live hb
  have hp := hi.procs
  refine ⟨s.ofile t fd, s, rfl, ?_⟩
  cases hf : s.ofile t fd with
  | none =>
    refine ⟨{ G t with closed := c }, hi.step (hi.refs_same rfl rfl rfl (fun _ => rfl) hi.refs.zero)
      (hi.fresh_same rfl rfl rfl rfl fun _ _ _ => rfl)
      (hi.ends_same rfl rfl (fun _ => rfl) rfl rfl rfl rfl)
      (hi.inodes_same rfl (fun _ => rfl) rfl rfl) ?_ (fun _ _ h => h) (fun h => absurd hl h), hn⟩
    rw [update_same Gh.child rfl, update_same Gh.saw rfl]
    refine ⟨hp.empty, hp.embryo, hp.rest, hp.once, hp.saw, fun u x hx => ?_⟩
    by_cases hu : u = t
    · subst hu
      rw [update_self] at hx
      rcases hc x hx with h | rfl
      · exact hp.closed u x h
      · exact hf
    · rw [update_of_ne hu] at hx
      exact hp.closed u x hx
  | some f =>
    refine ⟨{ G t with saw := (fd, f) :: (G t).saw },
      hi.step (hi.refs_same rfl rfl rfl (fun _ => rfl) hi.refs.zero)
      (hi.fresh_same rfl rfl rfl rfl fun _ _ _ => rfl)
      (hi.ends_same rfl rfl (fun _ => rfl) rfl rfl rfl rfl)
      (hi.inodes_same rfl (fun _ => rfl) rfl rfl) ?_ (fun _ _ h => h) (fun h => absurd hl h), hs f⟩
    rw [update_same Gh.child rfl, update_same Gh.closed rfl]
    refine ⟨hp.empty, hp.embryo, hp.rest, hp.once, fun u x hx => ?_, hp.closed⟩
    by_cases hu : u = t
    · subst hu
      rw [update_self] at hx
      rcases List.mem_cons.1 hx with rfl | hx
      · exact hf
      · exact hp.saw u x hx
    · rw [update_of_ne hu] at hx
      exact hp.saw u x hx

theorem ok_filealloc {k : Option Fid → P α} (hb : g.busy) (hd : g.debt = [])
    (hn : FtOk t (k none) g Q)
    (hs : ∀ f ∉ g.fresh,
      FtOk t (k (some f)) { g with hold := f :: g.hold, fresh := f :: g.fresh } Q) :
    FtOk t (.act .filealloc k) g Q := by
  apply ok_done
  rintro s G hi rfl -
  have hl := hi.proc_live hb
  show ∃ b s', exec .filealloc t s = .done b s' ∧ _
  delta exec
  dsimp only
  cases hf : s.freeFile with
  | none =>
    refine ⟨none, s, rfl, G t, ?_, hn⟩
    rw [update_eq_self]
    exact hi
  | some f =>
    have hzero : (s.file f).ref = 0 := by simpa using List.find?_some hf
    have hnet : ∀ u, net s (fun u => (G u).hold) (fun u => (G u).debt) u f = 0 := by
      intro u
      have := hi.refs.net_le u f
      omega
    have hne : ∀ u, ∀ x ∈ (G u).fresh, x ≠ f := by
      rintro u x hx rfl
      have := hi.fresh.ref u x hx
      omega
    refine ⟨some f, _, rfl, _, hi.step ?_ ?_ ?_ ?_ ?_ (fun _ _ h => h) (fun h => absurd hl h),
      hs f fun hm => hne t f hm rfl⟩
    · refine hi.refs.change (fun _ _ => rfl) (fun x => ?_) (fun x => ?_) fun x hx => ?_
      · show ((s.setFile f _).file x).ref + (own s t x + (G t).hold.count x - (G t).debt.count x) =
          (s.file x).ref + (own s t x + (f :: (G t).hold).count x - (G t).debt.count x)
        rw [hd, List.count_cons]
        by_cases hx : x = f
        · subst hx
          rw [setFile_self, hzero]
          simp
          omega
        · rw [setFile_ne hx]
          simp [Ne.symm hx]
      · exact hi.refs.debt t x
      · by_cases hxf : x = f
        · subst hxf
          rw [setFile_self] at hx
          cases hx
        · rw [setFile_ne hxf] at hx ⊢
          exact hi.refs.zero x hx
    · refine hi.fresh.change (fun _ _ => rfl) (fun u hu x hx => ⟨setFile_ne (hne u x hx), ?_⟩) fun x hx => ?_
      · have := hi.fresh.mine u x hx t (Ne.symm hu)
        unfold net at this
        show own s t x + (f :: (G t).hold).count x - (G t).debt.count x = 0
        rw [List.count_cons_of_ne (Ne.symm (hne u x hx))]
        exact this
      · rcases List.mem_cons.1 hx with rfl | hx
        · rw [setFile_self]
          exact ⟨hi.refs.zero x hzero, rfl, fun u _ => hnet u⟩
        · rw [setFile_ne (hne t x hx)]
          exact ⟨hi.fresh.type t x hx, hi.fresh.ref t x hx, hi.fresh.mine t x hx⟩
    · exact hi.ends_same rfl rfl (setFile_congr Ftable.ends rfl) rfl rfl rfl rfl
    · exact hi.inodes_same rfl (setFile_congr Ftable.inodes rfl) rfl rfl
    · exact hi.procs_same rfl rfl rfl rfl rfl

/-! ## Counting references -/

theorem Inv.ref_pos (hi : Inv s G) (hpos : (G t).debt.count f + 1 ≤ own s t f + (G t).hold.count f) :
    1 ≤ net s (fun u => (G u).hold) (fun u => (G u).debt) t f ∧ 1 ≤ (s.file f).ref := by
  have hnet : 1 ≤ net s (fun u => (G u).hold) (fun u => (G u).debt) t f := by
    rw [net_eq]
    omega
  exact ⟨hnet, hnet.trans (hi.refs.net_le t f)⟩

theorem ok_filedup {k : Unit → P α} (hb : g.busy) (hfresh : f ∉ g.fresh)
    (hpos : ∀ s G, Inv s G → G t = g → g.debt.count f + 1 ≤ own s t f + g.hold.count f)
    (hcount : ∀ x, a.count x + g.debt.count x = g.hold.count x + d.count x + [f].count x)
    (hle : ∀ x, d.count x ≤ g.debt.count x)
    (hk : FtOk t (k ()) { g with hold := a, debt := d } Q) : FtOk t (.act (.filedup f) k) g Q := by
  apply ok_done
  rintro s G hi rfl -
  have hl := hi.proc_live hb
  obtain ⟨hnet, href⟩ := hi.ref_pos (hpos s G hi rfl)
  have hne : ∀ u, ∀ x ∈ (G u).fresh, x ≠ f := by
    rintro u x hx rfl
    by_cases hu : u = t
    · exact hfresh (hu ▸ hx)
    · exact hi.fresh.notMem hnet hu hx
  refine ⟨(), s.setFile f { s.file f with ref := (s.file f).ref + 1 }, if_neg (by omega),
    { G t with hold := a, debt := d },
    hi.step ?_ ?_ ?_ ?_ ?_ (fun _ _ h => h) (fun h => absurd hl h), hk⟩
  · refine hi.refs.change (fun _ _ => rfl) (fun x => ?_) (fun x => ?_) fun x hx => ?_
    · show ((s.setFile f _).file x).ref + (own s t x + (G t).hold.count x - (G t).debt.count x) =
        (s.file x).ref + (own s t x + a.count x - d.count x)
      have hd : (G t).debt.count x ≤ own s t x := hi.refs.debt t x
      have hc := hcount x
      have hx := hle x
      by_cases hxf : x = f
      · subst hxf
        rw [setFile_self]
        rw [List.count_singleton_self] at hc
        show (s.file x).ref + 1 + _ = _
        omega
      · rw [setFile_ne hxf]
        rw [count_ne hxf] at hc
        omega
    · exact (hle x).trans (hi.refs.debt t x)
    · by_cases hxf : x = f
      · subst hxf
        rw [setFile_self] at hx
        cases hx
      · rw [setFile_ne hxf] at hx ⊢
        exact hi.refs.zero x hx
  · refine hi.fresh.change (fun _ _ => rfl) (fun u hu x hx => ⟨setFile_ne (hne u x hx), ?_⟩) fun x hx => ?_
    · have hm := hi.fresh.mine u x hx t (Ne.symm hu)
      rw [net_eq] at hm
      have hd : (G t).debt.count x ≤ own s t x := hi.refs.debt t x
      have hc := hcount x
      rw [count_ne (hne u x hx)] at hc
      show own s t x + a.count x - d.count x = 0
      omega
    · rw [setFile_ne (hne t x hx)]
      exact ⟨hi.fresh.type t x hx, hi.fresh.ref t x hx, hi.fresh.mine t x hx⟩
  · exact hi.ends_same rfl rfl (setFile_congr Ftable.ends rfl) rfl rfl rfl rfl
  · exact hi.inodes_same rfl (setFile_congr Ftable.inodes rfl) rfl rfl
  · exact hi.procs_same rfl rfl rfl rfl rfl

/-- The critical section of `fileclose`. -/
theorem ok_dropRef {k : Option File → P α} (hb : g.busy)
    (hpos : ∀ s G, Inv s G → G t = g → g.debt.count f + 1 ≤ own s t f + g.hold.count f)
    (hcount : ∀ x, g.hold.count x + d.count x = a.count x + g.debt.count x + [f].count x)
    (hle : ∀ s G, Inv s G → G t = g → ∀ x, d.count x ≤ own s t x)
    (hn : FtOk t (k none) { g with hold := a, debt := d, fresh := g.fresh.erase f } Q)
    (hs : ∀ ff, FtOk t (k (some ff)) { g with
      hold := a, debt := d, fresh := g.fresh.erase f
      ends := g.ends ++ ends ff, inodes := g.inodes ++ inodes ff } Q)
    (hnd : g.fresh.Nodup) : FtOk t (.act (.dropRef f) k) g Q := by
  apply ok_done
  rintro s G hi rfl -
  have hl := hi.proc_live hb
  obtain ⟨hnet, href⟩ := hi.ref_pos (hpos s G hi rfl)
  have hnf : f ∉ (G t).fresh.erase f := fun hm => (hnd.mem_erase_iff.1 hm).1 rfl
  have hne : ∀ u ≠ t, ∀ x ∈ (G u).fresh, x ≠ f := by
    rintro u hu x hx rfl
    exact hi.fresh.notMem hnet hu hx
  -- both cases lower the count and keep what others know
  have hrefs : ∀ y : File, y.ref + 1 = (s.file f).ref → (y.ref = 0 → y.type = .none) →
      Refs (s.setFile f y) (update (fun u => (G u).hold) t a)
        (update (fun u => (G u).debt) t d) := by
    intro y hy hz
    refine hi.refs.change (fun _ _ => rfl) (fun x => ?_) (hle s G hi rfl) fun x hx => ?_
    · show ((s.setFile f _).file x).ref + (own s t x + (G t).hold.count x - (G t).debt.count x) =
        (s.file x).ref + (own s t x + a.count x - d.count x)
      have hd : (G t).debt.count x ≤ own s t x := hi.refs.debt t x
      have hc := hcount x
      have hx := hle s G hi rfl x
      by_cases hxf : x = f
      · subst hxf
        rw [setFile_self]
        rw [List.count_singleton_self] at hc
        have := hpos s G hi rfl
        omega
      · rw [setFile_ne hxf]
        rw [count_ne hxf] at hc
        omega
    · by_cases hxf : x = f
      · subst hxf
        rw [setFile_self] at hx ⊢
        exact hz hx
      · rw [setFile_ne hxf] at hx ⊢
        exact hi.refs.zero x hx
  have hfresh : ∀ y : File, Fresh (s.setFile f y) (update (fun u => (G u).hold) t a)
      (update (fun u => (G u).debt) t d)
      (update (fun u => (G u).fresh) t ((G t).fresh.erase f)) := by
    intro y
    refine hi.fresh.change (fun _ _ => rfl) (fun u hu x hx => ⟨setFile_ne (hne u hu x hx), ?_⟩)
      fun x hx => ?_
    · have hm := hi.fresh.mine u x hx t (Ne.symm hu)
      rw [net_eq] at hm
      have hc := hcount x
      rw [count_ne (hne u hu x hx)] at hc
      show own s t x + a.count x - d.count x = 0
      omega
    · have hxf : x ≠ f := fun he => hnf (he ▸ hx)
      have hx := List.mem_of_mem_erase hx
      rw [setFile_ne hxf]
      exact ⟨hi.fresh.type t x hx, hi.fresh.ref t x hx, hi.fresh.mine t x hx⟩
  by_cases hlast : (s.file f).ref - 1 > 0
  · refine ⟨none, s.setFile f { s.file f with ref := (s.file f).ref - 1 }, ?_, _,
      hi.step (hrefs _ (by show (s.file f).ref - 1 + 1 = _; omega) ?_) (hfresh _) ?_ ?_ ?_
      (fun _ _ h => h) (fun h => absurd hl h), hn⟩
    · show (if (s.file f).ref < 1 then _ else _) = _
      rw [if_neg (by omega), if_pos hlast]
    · show (s.file f).ref - 1 = 0 → _
      omega
    · exact hi.ends_same rfl rfl (setFile_congr Ftable.ends rfl) rfl rfl rfl rfl
    · exact hi.inodes_same rfl (setFile_congr Ftable.inodes rfl) rfl rfl
    · exact hi.procs_same rfl rfl rfl rfl rfl
  · refine ⟨some (s.file f), s.setFile f { s.file f with ref := 0, type := .none }, ?_, _,
      hi.step (hrefs _ (by show 0 + 1 = _; omega) fun _ => rfl) (hfresh _) ?_ ?_ ?_
      (fun _ _ h => h) (fun h => absurd hl h), hs _⟩
    · show (if (s.file f).ref < 1 then _ else _) = _
      rw [if_neg (by omega), if_neg hlast]
    · -- the pipe end passes from the file to the call
      rw [update_same Gh.pages rfl]
      refine hi.ends.congr (fun e => ?_) rfl rfl rfl rfl rfl
      have h1 := total_setFile (s := s) (f := f) Ftable.ends { s.file f with ref := 0, type := .none } e
      have h2 := total_update (F := fun u => (G u).ends) t ((G t).ends ++ Ftable.ends (s.file f)) e
      have h3 : (Ftable.ends { s.file f with ref := 0, type := .none }).count e = 0 := rfl
      rw [List.count_append] at h2
      show total _ e + total (update (fun u => (G u).ends) t
        ((G t).ends ++ Ftable.ends (s.file f))) e = total _ e + total _ e
      omega
    · intro ip
      have h1 := total_setFile (s := s) (f := f) Ftable.inodes { s.file f with ref := 0, type := .none } ip
      have h2 := total_update (F := fun u => (G u).inodes) t ((G t).inodes ++ Ftable.inodes (s.file f)) ip
      have h3 : (Ftable.inodes { s.file f with ref := 0, type := .none }).count ip = 0 := rfl
      have h4 := hi.inodes ip
      rw [List.count_append] at h2
      show s.opened ip = s.puts ip + total _ ip + total (update (fun u => (G u).inodes) t
        ((G t).inodes ++ Ftable.inodes (s.file f))) ip
      omega
    · exact hi.procs_same rfl rfl rfl rfl rfl

end Xv6.Ftable
