import Xv6.Ftable.Rules

/-!
# Pipe ends, pages and inodes of files
-/

namespace Xv6.Ftable

open Function Xv6.Threads Xv6.Files

variable {s s' : St} {G : Tid → Gh} {t u : Tid} {g q : Gh} {f : Fid} {pi : ℕ} {w : Bool}
  {α : Type} {Q : α → Gh → Prop}

theorem close_isOpen (x : Pipe) (w : Bool) : (x.close w).isOpen w = false := by cases w <;> rfl

theorem close_isOpen_not (x : Pipe) (w : Bool) : (x.close w).isOpen (!w) = x.isOpen !w := by
  cases w <;> rfl

theorem closed_iff (x : Pipe) (w : Bool) :
    (!(x.close w).readopen && !(x.close w).writeopen) = !x.isOpen !w := by cases w <;> simp [Pipe.close, Pipe.isOpen]

/-! ## Closing -/

section
variable {E : Tid → List PipeEnd} {A : Tid → List ℕ}

theorem Ends.change {E' : Tid → List PipeEnd} {A' : Tid → List ℕ} (h : Ends s E A) (pi : ℕ)
    (hcount : ∀ e : PipeEnd, e.page ≠ pi → endCount s' E' e = endCount s E e)
    (hpage : ∀ p ≠ pi, total A' p = total A p ∧ s'.live p = s.live p ∧ s'.pipe p = s.pipe p ∧
      s'.kallocs p = s.kallocs p ∧ s'.kfrees p = s.kfrees p)
    (hpi : PageOk (fun w => endCount s' E' ⟨pi, w⟩) (total A' pi) (s'.live pi) (s'.pipe pi)
      (s'.kallocs pi) (s'.kfrees pi)) : Ends s' E' A' := by
  intro p
  by_cases hp : p = pi
  · rw [hp]
    exact hpi
  · obtain ⟨h1, h2, h3, h4, h5⟩ := hpage p hp
    have hc : (fun w => endCount s' E' ⟨p, w⟩) = fun w => endCount s E ⟨p, w⟩ :=
      funext fun w => hcount ⟨p, w⟩ hp
    rw [hc, h1, h2, h3, h4, h5]
    exact h p

theorem total_other {ι α : Type} [Fintype ι] [DecidableEq ι] [DecidableEq α] {F : ι → List α} {i : ι}
    {x : List α} {a : α} (h : (F i).count a = x.count a) :
    total (update F i x) a = total F a := by
  have := total_update (F := F) i x a
  omega

/-- An end that a call is to close is open, and there is no other file or call for it. -/
theorem Ends.pending (h : Ends s E A) (hE : E t = [⟨pi, w⟩]) :
    s.live pi ∧ total A pi = 0 ∧
      (∀ w, endCount s E ⟨pi, w⟩ = if (s.pipe pi).isOpen w then 1 else 0) ∧
      (s.pipe pi).isOpen w ∧ s.kallocs pi = s.kfrees pi + 1 := by
  have hpos : 1 ≤ endCount s E ⟨pi, w⟩ := by
    have := count_le_total (F := E) t ⟨pi, w⟩
    rw [hE, List.count_singleton_self] at this
    unfold endCount
    omega
  rcases h pi with ⟨-, -, hz, -⟩ | ⟨-, -, hz, -⟩ | ⟨hl, hn, hc, -, hk⟩
  · have : endCount s E ⟨pi, w⟩ = 0 := hz w
    omega
  · have : endCount s E ⟨pi, w⟩ = 0 := hz w
    omega
  · refine ⟨hl, hn, hc, ?_, hk⟩
    by_contra ho
    have : endCount s E ⟨pi, w⟩ = _ := hc w
    rw [if_neg ho] at this
    omega

/-- Closing an end; the page passes to the call if the other end is closed. -/
theorem Ends.close (h : Ends s E A) (hE : E t = [⟨pi, w⟩]) (hA : A t = []) :
    Ends (s.setPipe pi ((s.pipe pi).close w)) (update E t [])
      (update A t (if (s.pipe pi).isOpen (!w) then [] else [pi])) := by
  obtain ⟨hlive, hpage, hc, hopen, hk⟩ := h.pending hE
  have hcount : ∀ e, endCount (s.setPipe pi ((s.pipe pi).close w)) (update E t []) e +
      [PipeEnd.mk pi w].count e = endCount s E e := by
    intro e
    have := total_update (F := E) t [] e
    rw [hE, List.count_nil] at this
    unfold endCount
    show total (fun f => ends (s.file f)) e + _ + _ = _
    omega
  have hself : endCount (s.setPipe pi ((s.pipe pi).close w)) (update E t []) ⟨pi, w⟩ = 0 := by
    have := hcount ⟨pi, w⟩
    rw [List.count_singleton_self, hc, hopen, if_pos rfl] at this
    omega
  have hother : ∀ e, e ≠ ⟨pi, w⟩ →
      endCount (s.setPipe pi ((s.pipe pi).close w)) (update E t []) e = endCount s E e := by
    intro e he
    have := hcount e
    rwa [count_ne he, Nat.add_zero] at this
  have hnot : endCount (s.setPipe pi ((s.pipe pi).close w)) (update E t []) ⟨pi, !w⟩ =
      if (s.pipe pi).isOpen (!w) then 1 else 0 := by
    rw [hother _ (by simp), hc]
  refine h.change pi (fun e he => hother e fun hw => he (by rw [hw])) (fun p hp => ⟨?_, rfl, ?_, rfl, rfl⟩) ?_
  · apply total_other
    rw [hA]
    split_ifs
    · rfl
    · rw [List.count_nil, count_ne hp]
  · exact update_of_ne hp ..
  · show PageOk _ _ (s.live pi) (update s.pipe pi _ pi) (s.kallocs pi) (s.kfrees pi)
    rw [update_self]
    by_cases ho : (s.pipe pi).isOpen (!w) = true
    · rw [if_pos ho] at hnot ⊢
      refine Or.inr (Or.inr ⟨hlive, ?_, fun w' => ?_, ⟨!w, by rw [close_isOpen_not]; exact ho⟩, hk⟩)
      · rw [total_other (by rw [hA]), hpage]
      · show endCount _ _ _ = _
        by_cases hw : w' = w
        · rw [hw, hself, close_isOpen]
          rfl
        · obtain rfl : w' = !w := by revert hw; cases w <;> cases w' <;> simp
          rw [hnot, close_isOpen_not, if_pos ho]
    · rw [if_neg ho] at hnot ⊢
      refine Or.inr (Or.inl ⟨hlive, ?_, fun w' => ?_, hk⟩)
      · have := total_update (F := A) t [pi] pi
        rw [hA, List.count_nil, List.count_singleton_self] at this
        omega
      · show endCount _ _ _ = _
        by_cases hw : w' = w
        · rw [hw, hself]
        · obtain rfl : w' = !w := by revert hw; cases w <;> cases w' <;> simp
          exact hnot

/-- A call that has a page in hand frees it, or makes a pipe of it. -/
theorem Ends.inHand (h : Ends s E A) (hA : A t = [pi]) :
    s.live pi ∧ total (update A t []) pi = 0 ∧ (∀ w, endCount s E ⟨pi, w⟩ = 0) ∧
      s.kallocs pi = s.kfrees pi + 1 := by
  have hpos : 1 ≤ total A pi := by
    have := count_le_total (F := A) t pi
    rwa [hA, List.count_singleton_self] at this
  have htot := total_update (F := A) t [] pi
  rw [hA, List.count_nil, List.count_singleton_self] at htot
  rcases h pi with ⟨-, hn, -⟩ | ⟨hl, hn, hz, hk⟩ | ⟨-, hn, -⟩
  · omega
  · exact ⟨hl, by omega, hz, hk⟩
  · omega

theorem total_page_other {p : ℕ} (hA : A t = [pi]) (hp : p ≠ pi) :
    total (update A t []) p = total A p := by
  apply total_other
  rw [hA, List.count_nil, count_ne hp]

theorem Ends.free (h : Ends s E A) (hA : A t = [pi]) :
    Ends { s with
      live := update s.live pi false
      kfrees := update s.kfrees pi (s.kfrees pi + 1) } E (update A t []) := by
  obtain ⟨hl, hn, hz, hk⟩ := h.inHand hA
  refine h.change pi (fun _ _ => rfl) (fun p hp => ⟨total_page_other hA hp, ?_, rfl, rfl, ?_⟩) ?_
  · exact update_of_ne hp ..
  · exact update_of_ne hp ..
  · refine Or.inl ⟨update_self .., hn, hz, ?_⟩
    show s.kallocs pi = update s.kfrees pi _ pi
    rw [update_self, hk]

theorem Ends.alloc (h : Ends s E A) (hA : A t = []) (hdead : s.live pi = false) :
    Ends { s with
      live := update s.live pi true
      kallocs := update s.kallocs pi (s.kallocs pi + 1) } E (update A t [pi]) := by
  have htot := total_update (F := A) t [pi] pi
  rw [hA, List.count_nil, List.count_singleton_self] at htot
  rcases h pi with ⟨-, hn, hz, hk⟩ | ⟨hl, -⟩ | ⟨hl, -⟩
  · refine h.change pi (fun _ _ => rfl) (fun p hp => ⟨?_, ?_, rfl, ?_, rfl⟩) ?_
    · apply total_other
      rw [hA, List.count_nil, count_ne hp]
    · exact update_of_ne hp ..
    · exact update_of_ne hp ..
    · refine Or.inr (Or.inl ⟨update_self .., by omega, hz, ?_⟩)
      show update s.kallocs pi _ pi = s.kfrees pi + 1
      rw [update_self, hk]
  · rw [hl] at hdead
    cases hdead
  · rw [hl] at hdead
    cases hdead

end

theorem ok_closeEnd {k : Bool → P α} (hb : g.busy) (hE : g.ends = [⟨pi, w⟩]) (hA : g.pages = [])
    (hlast : FtOk t (k true) { g with ends := [], pages := [pi] } Q)
    (hmore : FtOk t (k false) { g with ends := [], pages := [] } Q) :
    FtOk t (.act (.closeEnd pi w) k) g Q := by
  apply ok_done
  rintro s G hi rfl -
  have hl := hi.proc_live hb
  have hends := hi.ends.close (t := t) hE hA
  refine ⟨!(s.pipe pi).isOpen !w, s.setPipe pi ((s.pipe pi).close w), ?_,
    { G t with ends := [], pages := if (s.pipe pi).isOpen (!w) then [] else [pi] },
    hi.step (hi.refs_same rfl rfl rfl (fun _ => rfl) hi.refs.zero)
      (hi.fresh_same rfl rfl rfl rfl fun _ _ _ => rfl) hends (hi.inodes_same rfl (fun _ => rfl) rfl rfl)
      (hi.procs_same rfl rfl rfl rfl rfl) (fun _ _ h => h) (fun h => absurd hl h), ?_⟩
  · rw [← closed_iff]
    rfl
  · cases (s.pipe pi).isOpen !w
    · exact hlast
    · exact hmore

theorem ok_kfree {k : Unit → P α} (hb : g.busy) (hA : g.pages = [pi])
    (hk : FtOk t (k ()) { g with pages := [] } Q) : FtOk t (.act (.kfree pi) k) g Q := by
  apply ok_done
  rintro s G hi rfl -
  have hl := hi.proc_live hb
  have hends := hi.ends.free (t := t) hA
  rw [← update_same (q := { G t with pages := [] }) Gh.ends rfl] at hends
  exact ⟨(), _, rfl, { G t with pages := [] },
    hi.step (hi.refs_same rfl rfl rfl (fun _ => rfl) hi.refs.zero)
      (hi.fresh_same rfl rfl rfl rfl fun _ _ _ => rfl) hends (hi.inodes_same rfl (fun _ => rfl) rfl rfl)
      (hi.procs_same rfl rfl rfl rfl rfl) (fun _ _ h => h) (fun h => absurd hl h), hk⟩

theorem ok_iput {k : Unit → P α} {ip : ℕ} (hb : g.busy) (hI : g.inodes = [ip])
    (hk : FtOk t (k ()) { g with inodes := [] } Q) : FtOk t (.act (.iput ip) k) g Q := by
  apply ok_done
  rintro s G hi rfl -
  have hl := hi.proc_live hb
  refine ⟨(), _, rfl, { G t with inodes := [] },
    hi.step (hi.refs_same rfl rfl rfl (fun _ => rfl) hi.refs.zero)
      (hi.fresh_same rfl rfl rfl rfl fun _ _ _ => rfl) (hi.ends_same rfl rfl (fun _ => rfl) rfl rfl rfl rfl)
      ?_ (hi.procs_same rfl rfl rfl rfl rfl) (fun _ _ h => h) (fun h => absurd hl h), hk⟩
  intro x
  have h1 := total_update (F := fun u => (G u).inodes) t [] x
  have h2 := hi.inodes x
  rw [hI, List.count_nil] at h1
  show s.opened x = update s.puts ip _ x + total (fun f => Ftable.inodes (s.file f)) x +
    total (update _ t []) x
  by_cases hx : x = ip
  · subst hx
    rw [List.count_singleton_self] at h1
    rw [update_self]
    omega
  · rw [count_ne hx] at h1
    rw [update_of_ne hx]
    omega

/-- Nothing is left to be closed. -/
def Gh.settled (g : Gh) : Gh := { g with ends := [], inodes := [], pages := [] }

theorem Gh.settled_eq (hE : g.ends = []) (hI : g.inodes = []) (hA : g.pages = []) : g.settled = g := by
  cases g
  simp_all [Gh.settled]

/-- What `fileclose` does after its critical section. -/
theorem ok_closed {k : Unit → P α} {ff : Option File} (hb : g.busy)
    (hE : g.ends = ff.elim [] ends) (hI : g.inodes = ff.elim [] inodes) (hA : g.pages = [])
    (hk : FtOk t (k ()) g.settled Q) : FtOk t (closed ff >>= k) g Q := by
  have hiput : ∀ ip, g.ends = [] → g.inodes = [ip] → FtOk t (iput ip >>= k) g Q := by
    intro ip h1 h2
    refine ok_iput hb h2 ?_
    rw [← Gh.settled_eq (g := { g with inodes := [] }) h1 rfl hA]
    exact hk
  cases ff with
  | none =>
    rw [Gh.settled_eq hE hI hA] at hk
    exact hk
  | some ff =>
    replace hE : g.ends = ends ff := hE
    replace hI : g.inodes = inodes ff := hI
    unfold ends at hE
    unfold inodes at hI
    unfold closed
    cases hty : ff.type <;> simp only [hty, reduceCtorEq, if_false, if_true, or_self, or_true, true_or] at hE hI ⊢
    case none =>
      rw [Gh.settled_eq hE hI hA] at hk
      exact hk
    case pipe =>
      refine ok_closeEnd hb hE hA (ok_kfree hb rfl ?_) ?_
      · rw [← Gh.settled_eq (g := { g with ends := [], pages := [] }) rfl hI rfl]
        exact hk
      · rw [← Gh.settled_eq (g := { g with ends := [], pages := [] }) rfl hI rfl]
        exact hk
    case inode => exact hiput _ hE hI
    case device => exact hiput _ hE hI

/-! ## Making files -/

theorem ok_kalloc {k : Option ℕ → P α} {page : Option ℕ} (hb : g.busy) (hA : g.pages = [])
    (hn : FtOk t (k none) g Q) (hs : ∀ pi, FtOk t (k (some pi)) { g with pages := [pi] } Q) :
    FtOk t (.act (.kalloc page) k) g Q := by
  have hsame : ∀ s G, Inv s G → Inv s (update G t (G t)) := by
    intro s G hi
    rw [update_eq_self]
    exact hi
  apply ok_done
  rintro s G hi rfl -
  have hl := hi.proc_live hb
  cases page with
  | none => exact ⟨none, s, rfl, G t, hsame s G hi, hn⟩
  | some pi =>
    by_cases hlive : s.live pi = true
    · exact ⟨none, s, if_pos hlive, G t, hsame s G hi, hn⟩
    · have hends := hi.ends.alloc (t := t) hA (by simpa using hlive)
      rw [← update_same (q := { G t with pages := [pi] }) Gh.ends rfl] at hends
      exact ⟨some pi, _, if_neg hlive, { G t with pages := [pi] },
        hi.step (hi.refs_same rfl rfl rfl (fun _ => rfl) hi.refs.zero)
          (hi.fresh_same rfl rfl rfl rfl fun _ _ _ => rfl) hends
          (hi.inodes_same rfl (fun _ => rfl) rfl rfl) (hi.procs_same rfl rfl rfl rfl rfl)
          (fun _ _ h => h) (fun h => absurd hl h), hs pi⟩

theorem Inv.fresh_uniq (hi : Inv s G) (ht : f ∈ (G t).fresh) (hu : f ∈ (G u).fresh) : u = t := by
  by_contra hne
  have hzero : ∀ v, net s (fun u => (G u).hold) (fun u => (G u).debt) v f = 0 := by
    intro v
    by_cases hv : v = t
    · subst hv
      exact hi.fresh.mine u f hu v (Ne.symm hne)
    · exact hi.fresh.mine t f ht v hv
  have h1 := hi.fresh.ref t f ht
  rw [hi.refs.ref, Finset.sum_eq_zero fun v _ => hzero v] at h1
  cases h1

theorem Inv.typed_fresh (hi : Inv s G) {n : List Fid} (hfile : ∀ u ≠ t, ∀ x ∈ (G u).fresh, s'.file x = s.file x)
    (hn : ∀ x ∈ n, x ∈ (G t).fresh ∧ s'.file x = s.file x) (hofile : s'.ofile = s.ofile) :
    Fresh s' (update (fun u => (G u).hold) t (G t).hold)
      (update (fun u => (G u).debt) t (G t).debt)
      (update (fun u => (G u).fresh) t n) := by
  refine hi.fresh.change (fun u _ => by rw [hofile]) (fun u hu x hx => ⟨hfile u hu x hx, ?_⟩) fun x hx => ?_
  · have ho : own s' t x = own s t x := own_congr (by rw [hofile])
    rw [ho]
    exact hi.fresh.mine u x hx t (Ne.symm hu)
  · obtain ⟨hx, he⟩ := hn x hx
    rw [he]
    exact ⟨hi.fresh.type t x hx, hi.fresh.ref t x hx, hi.fresh.mine t x hx⟩

theorem ok_setFile {k : Unit → P α} {device readable writable : Bool} {ip : ℕ} (hb : g.busy)
    (hf : g.fresh = [f]) (hk : FtOk t (k ()) { g with fresh := [] } Q) :
    FtOk t (.act (.setFile f device ip readable writable) k) g Q := by
  apply ok_done
  rintro s G hi rfl -
  have hl := hi.proc_live hb
  have hmem : f ∈ (G t).fresh := by rw [hf]; exact List.mem_singleton_self f
  have hnone := hi.fresh.type t f hmem
  set y : File := { s.file f with
    type := if device then .device else .inode, ip := ip, readable := readable, writable := writable }
    with hy
  have hends : ends y = ends (s.file f) := by
    unfold ends
    rw [hnone, hy]
    cases device <;> rfl
  have hino : inodes y = [ip] := by
    unfold inodes
    rw [hy]
    cases device <;> rfl
  have hino' : inodes (s.file f) = [] := by
    unfold inodes
    rw [hnone]
    rfl
  refine ⟨(), { s.setFile f y with opened := update s.opened ip (s.opened ip + 1) }, rfl,
    { G t with fresh := [] }, hi.step ?_ ?_ ?_ ?_ ?_ (fun _ _ h => h) (fun h => absurd hl h), hk⟩
  · refine hi.refs_same rfl rfl rfl (setFile_congr File.ref rfl) fun x hx => ?_
    have hx' : (s.file x).ref = 0 := 
      (setFile_congr (s := s) (f := f) (x := y) File.ref rfl x).symm.trans hx
    have hxf : x ≠ f := by
      rintro rfl
      rw [hi.fresh.ref t x hmem] at hx'
      cases hx'
    show ((s.setFile f y).file x).type = _
    rw [setFile_ne hxf]
    exact hi.refs.zero x hx'
  · refine hi.typed_fresh (fun u hu x hx => setFile_ne ?_) nofun rfl
    rintro rfl
    exact hu (hi.fresh_uniq hmem hx)
  · exact hi.ends_same rfl rfl (setFile_congr Ftable.ends hends) rfl rfl rfl rfl
  · intro x
    have h1 := total_setFile (s := s) (f := f) Ftable.inodes y x
    have h2 := hi.inodes x
    rw [hino, hino', List.count_nil] at h1
    rw [update_same Gh.inodes rfl]
    show update s.opened ip _ x = s.puts x + total (fun z => Ftable.inodes ((s.setFile f y).file z)) x + _
    by_cases hx : x = ip
    · subst hx
      rw [List.count_singleton_self] at h1
      rw [update_self]
      omega
    · rw [count_ne hx] at h1
      rw [update_of_ne hx]
      omega
  · exact hi.procs_same rfl rfl rfl rfl rfl

theorem Ends.make {E : Tid → List PipeEnd} {A : Tid → List ℕ} (h : Ends s E A) (hA : A t = [pi])
    (hfile : ∀ e, total (fun x => ends (s'.file x)) e =
      total (fun x => ends (s.file x)) e + [PipeEnd.mk pi false, PipeEnd.mk pi true].count e)
    (hpipe : s'.pipe = update s.pipe pi ⟨true, true⟩) (hlive : s'.live = s.live)
    (ha : s'.kallocs = s.kallocs) (hf : s'.kfrees = s.kfrees) :
    Ends s' E (update A t []) := by
  obtain ⟨hl, hn, hz, hk⟩ := h.inHand hA
  refine h.change pi (fun e he => ?_) (fun p hp => ⟨total_page_other hA hp, ?_, ?_, ?_, ?_⟩) ?_
  · unfold endCount
    rw [hfile, List.count_eq_zero.2, Nat.add_zero]
    intro hm
    rcases List.mem_cons.1 hm with rfl | hm
    · exact he rfl
    · rw [List.mem_singleton] at hm
      exact he (by rw [hm])
  · rw [hlive]
  · rw [hpipe, update_of_ne hp]
  · rw [ha]
  · rw [hf]
  · rw [hlive, ha, hf, hpipe, update_self]
    refine Or.inr (Or.inr ⟨hl, hn, fun w => ?_, ⟨true, rfl⟩, hk⟩)
    have hw := hz w
    show endCount _ _ _ = _
    unfold endCount at hw ⊢
    rw [hfile]
    have hc : [PipeEnd.mk pi false, PipeEnd.mk pi true].count ⟨pi, w⟩ = 1 := by
      cases w <;> simp
    have ho : (⟨true, true⟩ : Pipe).isOpen w := by cases w <;> rfl
    rw [hc, ho, if_pos rfl]
    omega

theorem ok_makePipe {k : Unit → P α} {f0 f1 : Fid} (hb : g.busy) (hne : f1 ≠ f0)
    (hf : g.fresh = [f1, f0]) (hA : g.pages = [pi])
    (hk : FtOk t (k ()) { g with fresh := [], pages := [] } Q) :
    FtOk t (.act (.makePipe f0 f1 pi) k) g Q := by
  apply ok_done
  rintro s G hi rfl -
  have hl := hi.proc_live hb
  have hm0 : f0 ∈ (G t).fresh := by rw [hf]; simp
  have hm1 : f1 ∈ (G t).fresh := by rw [hf]; simp
  have hn0 := hi.fresh.type t f0 hm0
  have hn1 := hi.fresh.type t f1 hm1
  set y0 : File := { s.file f0 with type := .pipe, readable := true, writable := false, pipe := pi } with hy0
  set y1 : File := { s.file f1 with type := .pipe, readable := false, writable := true, pipe := pi } with hy1
  set s1 := (s.setPipe pi ⟨true, true⟩).setFile f0 y0 with hs1
  have hs1f : s1.file f1 = s.file f1 := setFile_ne hne
  have hexec : exec (.makePipe f0 f1 pi) t s = .done () (s1.setFile f1 y1) := by
    show Outcome.done () (s1.setFile f1 { s1.file f1 with
      type := .pipe, readable := false, writable := true, pipe := pi }) = _
    rw [hs1f]
  have hother : ∀ x ≠ f0, x ≠ f1 → (s1.setFile f1 y1).file x = s.file x := by
    intro x h0 h1
    rw [setFile_ne h1]
    exact setFile_ne h0
  have hf0 : (s1.setFile f1 y1).file f0 = y0 := by
    rw [setFile_ne (Ne.symm hne)]
    exact setFile_self
  have hf1 : (s1.setFile f1 y1).file f1 = y1 := setFile_self
  refine ⟨(), s1.setFile f1 y1, hexec, { G t with fresh := [], pages := [] },
    hi.step ?_ ?_ ?_ ?_ ?_ (fun _ _ h => h) (fun h => absurd hl h), hk⟩
  · have href : ∀ x, ((s1.setFile f1 y1).file x).ref = (s.file x).ref := by
      intro x
      by_cases h1 : x = f1
      · rw [h1, hf1]
      · by_cases h0 : x = f0
        · rw [h0, hf0]
        · rw [hother x h0 h1]
    refine hi.refs_same rfl rfl rfl href fun x hx => ?_
    have hx' := (href x).symm.trans hx
    have hne' : ∀ y ∈ (G t).fresh, x ≠ y := by
      rintro y hy rfl
      rw [hi.fresh.ref t x hy] at hx'
      cases hx'
    rw [hother x (hne' f0 hm0) (hne' f1 hm1)]
    exact hi.refs.zero x hx'
  · refine hi.typed_fresh (fun u hu x hx => hother x ?_ ?_) nofun rfl
    · rintro rfl
      exact hu (hi.fresh_uniq hm0 hx)
    · rintro rfl
      exact hu (hi.fresh_uniq hm1 hx)
  · rw [update_same Gh.ends rfl]
    refine hi.ends.make hA (fun e => ?_) rfl rfl rfl rfl
    have h0 := total_setFile (s := s.setPipe pi ⟨true, true⟩) (f := f0) Ftable.ends y0 e
    have h1 := total_setFile (s := s1) (f := f1) Ftable.ends y1 e
    have e0 : Ftable.ends ((s.setPipe pi ⟨true, true⟩).file f0) = [] := by
      unfold Ftable.ends
      rw [show (s.setPipe pi ⟨true, true⟩).file f0 = s.file f0 from rfl, hn0]
      rfl
    have e1 : Ftable.ends (s1.file f1) = [] := by
      unfold Ftable.ends
      rw [hs1f, hn1]
      rfl
    rw [← hs1, e0, List.count_nil, show Ftable.ends y0 = [⟨pi, false⟩] from rfl] at h0
    rw [e1, List.count_nil, show Ftable.ends y1 = [⟨pi, true⟩] from rfl] at h1
    rw [List.count_cons]
    rw [List.count_singleton] at h0
    have h2 : total (fun x => Ftable.ends ((s.setPipe pi ⟨true, true⟩).file x)) e =
      total (fun x => Ftable.ends (s.file x)) e := rfl
    omega
  · refine hi.inodes_same rfl (fun x => ?_) rfl rfl
    by_cases h1 : x = f1
    · rw [h1, hf1]
      unfold Ftable.inodes
      rw [hn1]
      rfl
    · by_cases h0 : x = f0
      · rw [h0, hf0]
        unfold Ftable.inodes
        rw [hn0]
        rfl
      · rw [hother x h0 h1]
  · exact hi.procs_same rfl rfl rfl rfl rfl

end Xv6.Ftable
