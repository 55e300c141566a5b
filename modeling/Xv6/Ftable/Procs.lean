import Xv6.Ftable.Pipes

/-!
# Descriptors and processes
-/

namespace Xv6.Ftable

open Function Xv6.Threads Xv6.Files

variable {s s' : St} {G : Tid → Gh} {t u : Tid} {g q : Gh} {f : Fid} {fd : Fd} {a d : List Fid}
  {α : Type} {Q : α → Gh → Prop}

/-! ## The descriptors of the caller -/

theorem Procs.setOfile {C : Tid → Option (Tid × ℕ)} {W : Tid → List (Fd × Fid)} {K : Tid → ℕ}
    {v : List (Fd × Fid)} {c : ℕ} {x : Option Fid} (h : Procs s C W K) (hl : s.proc t = .live)
    (hW : ∀ y ∈ v, (s.setOfile t fd x).ofile t y.1 = some y.2)
    (hc : ∀ y : Fd, y.val < c → (s.setOfile t fd x).ofile t y = none) :
    Procs (s.setOfile t fd x) C (update W t v) (update K t c) := by
  constructor
  · intro u hu y
    have hut : u ≠ t := by
      rintro rfl
      rw [show (s.setOfile u fd x).proc u = s.proc u from rfl, hl] at hu
      rcases hu with hu | hu <;> cases hu
    rw [setOfile_other hut]
    exact h.empty u hu y
  · exact h.embryo
  · intro v u k hv y hy
    have hut : u ≠ t := by
      rintro rfl
      have := h.embryo v u k hv
      rw [hl] at this
      cases this
    rw [setOfile_other hut]
    exact h.rest v u k hv y hy
  · exact h.once
  · intro u y hy
    by_cases hut : u = t
    · subst hut
      rw [update_self] at hy
      exact hW y hy
    · rw [update_of_ne hut] at hy
      rw [setOfile_other hut]
      exact h.saw u y hy
  · intro u y hy
    by_cases hut : u = t
    · subst hut
      rw [update_self] at hy
      exact hc y hy
    · rw [update_of_ne hut] at hy
      rw [setOfile_other hut]
      exact h.closed u y hy

/-- A step by which process `t` changes a descriptor and what it has in hand, but not the references
that it accounts for. -/
theorem Inv.setOfile (hi : Inv s G) {x : Option Fid} {v : List (Fd × Fid)} {c : ℕ}
    (hb : (G t).busy)
    (hnet : ∀ y, own (s.setOfile t fd x) t y + a.count y + (G t).debt.count y =
      own s t y + (G t).hold.count y + d.count y)
    (hdebt : ∀ y, d.count y ≤ own (s.setOfile t fd x) t y)
    (hW : ∀ y ∈ v, (s.setOfile t fd x).ofile t y.1 = some y.2)
    (hc : ∀ y : Fd, y.val < c → (s.setOfile t fd x).ofile t y = none) :
    Inv (s.setOfile t fd x)
      (update G t { G t with hold := a, debt := d, saw := v, closed := c }) := by
  have hl := hi.proc_live hb
  have hle : ∀ y, (G t).debt.count y ≤ own s t y := fun y => hi.refs.debt t y
  refine hi.step ?_ ?_ (hi.ends_same rfl rfl (fun _ => rfl) rfl rfl rfl rfl)
    (hi.inodes_same rfl (fun _ => rfl) rfl rfl) ?_ (fun _ _ h => h) (fun h => absurd hl h)
  · refine hi.refs.change (fun u hu => setOfile_other hu) (fun y => ?_) hdebt hi.refs.zero
    have h1 := hnet y
    have h2 := hle y
    have h3 := hdebt y
    show (s.file y).ref + (own s t y + (G t).hold.count y - (G t).debt.count y) =
      (s.file y).ref + (own (s.setOfile t fd x) t y + a.count y - d.count y)
    omega
  · refine hi.fresh.change (fun u hu => setOfile_other hu) (fun u hu y hy => ⟨rfl, ?_⟩) fun y hy =>
      ⟨hi.fresh.type t y hy, hi.fresh.ref t y hy, hi.fresh.mine t y hy⟩
    have h0 := hi.fresh.mine u y hy t (Ne.symm hu)
    rw [net_eq] at h0
    have h1 := hnet y
    have h2 := hle y
    show own (s.setOfile t fd x) t y + a.count y - d.count y = 0
    omega
  · rw [update_same Gh.child rfl]
    exact hi.procs.setOfile hl hW hc

theorem ok_fdalloc {k : Option Fd → P α} (hb : g.busy) (hclosed : g.closed = 0)
    (hcount : ∀ y, [f].count y + a.count y + g.debt.count y = g.hold.count y + d.count y)
    (hle : ∀ y, d.count y ≤ g.debt.count y + [f].count y) (hn : FtOk t (k none) g Q)
    (hs : ∀ fd, (∀ x ∈ g.saw, x.1 ≠ fd) →
      FtOk t (k (some fd)) { g with hold := a, debt := d, saw := (fd, f) :: g.saw, closed := 0 } Q) :
    FtOk t (.act (.fdalloc f) k) g Q := by
  apply ok_done
  rintro s G hi rfl -
  show ∃ b s', exec (.fdalloc f) t s = .done b s' ∧ _
  delta exec
  dsimp only
  cases hf : s.freeFd t with
  | none =>
    refine ⟨none, s, rfl, G t, ?_, hn⟩
    rw [update_eq_self]
    exact hi
  | some fd =>
    have hnone : s.ofile t fd = none := by simpa using List.find?_some hf
    have hne : ∀ x ∈ (G t).saw, x.1 ≠ fd := by
      rintro x hx rfl
      have := hi.procs.saw t x hx
      rw [hnone] at this
      cases this
    refine ⟨some fd, _, rfl, _, hi.setOfile hb (fun y => ?_) (fun y => ?_) ?_
      (fun y hy => absurd hy (Nat.not_lt_zero _)), hs fd hne⟩
    · rw [own_fill hnone]
      have := hcount y
      omega
    · rw [own_fill hnone]
      have h1 := hle y
      have h2 : (G t).debt.count y ≤ own s t y := hi.refs.debt t y
      omega
    · intro y hy
      rw [setOfile_self]
      rcases List.mem_cons.1 hy with rfl | hy
      · exact if_pos rfl
      · rw [if_neg (hne y hy)]
        exact hi.procs.saw t y hy

theorem ok_clearFd {k : Unit → P α} {v : List (Fd × Fid)} {c : ℕ} (hb : g.busy)
    (hsaw : (fd, f) ∈ g.saw) (hcount : ∀ y, a.count y + g.debt.count y = g.hold.count y + [f].count y)
    (hW : ∀ x ∈ v, x ∈ g.saw ∧ x.1 ≠ fd) (hc : ∀ x : Fd, x.val < c → x.val < g.closed ∨ x = fd)
    (hk : FtOk t (k ()) { g with hold := a, debt := [], saw := v, closed := c } Q) :
    FtOk t (.act (.clearFd fd) k) g Q := by
  apply ok_done
  rintro s G hi rfl -
  have hsome : s.ofile t fd = some f := hi.procs.saw t (fd, f) hsaw
  refine ⟨(), _, rfl, _, hi.setOfile hb (fun y => ?_) (fun y => ?_) ?_ ?_, hk⟩
  · have h1 := own_clear hsome y
    have h2 := hcount y
    rw [List.count_nil]
    omega
  · exact Nat.zero_le _
  · intro y hy
    rw [setOfile_self, if_neg (hW y hy).2]
    exact hi.procs.saw t y (hW y hy).1
  · intro y hy
    rw [setOfile_self]
    rcases hc y hy with h | rfl
    · split_ifs
      · rfl
      · exact hi.procs.closed t y h
    · exact if_pos rfl

/-! ## Children -/

theorem ok_allocproc {k : Option Tid → P α} {mem : Bool} (hb : g.busy) (hn : FtOk t (k none) g Q)
    (hs : ∀ np, FtOk t (k (some np)) { g with child := some (np, 0) } Q) :
    FtOk t (.act (.allocproc mem) k) g Q := by
  apply ok_done
  rintro s G hi rfl -
  have hl := hi.proc_live hb
  have hsame : Inv s (update G t (G t)) := by
    rw [update_eq_self]
    exact hi
  show ∃ b s', exec (.allocproc mem) t s = .done b s' ∧ _
  delta exec
  dsimp only
  cases hf : s.freeProc with
  | none => exact ⟨none, s, rfl, G t, hsame, hn⟩
  | some np =>
    by_cases hm : mem = true
    · have hun : s.proc np = .unused := by simpa using List.find?_some hf
      have hother : ∀ u ≠ np, (s.setProc np .embryo).proc u = s.proc u :=
        fun u hu => update_of_ne hu ..
      have hself : (s.setProc np .embryo).proc np = .embryo := update_self ..
      have hnt : t ≠ np := by
        rintro rfl
        rw [hl] at hun
        cases hun
      have hp := hi.procs
      refine ⟨some np, s.setProc np .embryo, if_pos hm, { G t with child := some (np, 0) },
        hi.step (hi.refs_same rfl rfl rfl (fun _ => rfl) hi.refs.zero)
          (hi.fresh_same rfl rfl rfl rfl fun _ _ _ => rfl)
          (hi.ends_same rfl rfl (fun _ => rfl) rfl rfl rfl rfl) (hi.inodes_same rfl (fun _ => rfl) rfl rfl)
          ?_ ?_ ?_, hs np⟩
      · rw [update_same Gh.saw rfl, update_same Gh.closed rfl]
        have hchild : ∀ v u k, update (fun u => (G u).child) t (some (np, 0)) v = some (u, k) →
            (v = t ∧ u = np) ∨ (v ≠ t ∧ u ≠ np ∧ (G v).child = some (u, k)) := by
          intro v u k hv
          by_cases hvt : v = t
          · subst hvt
            rw [update_self] at hv
            cases hv
            exact Or.inl ⟨rfl, rfl⟩
          · rw [update_of_ne hvt] at hv
            refine Or.inr ⟨hvt, ?_, hv⟩
            rintro rfl
            have := hp.embryo v u k hv
            rw [hun] at this
            cases this
        constructor
        · intro u hu
          by_cases hunp : u = np
          · subst hunp
            rw [hself] at hu
            rcases hu with hu | hu <;> cases hu
          · rw [hother u hunp] at hu
            exact hp.empty u hu
        · intro v u k hv
          obtain ⟨-, rfl⟩ | ⟨-, hu, hv⟩ := hchild v u k hv
          · exact hself
          · rw [hother u hu]
            exact hp.embryo v u k hv
        · intro v u k hv y hy
          obtain ⟨-, rfl⟩ | ⟨-, hu, hv⟩ := hchild v u k hv
          · exact hp.empty u (Or.inl hun) y
          · exact hp.rest v u k hv y hy
        · intro v v' u k k' hv hv'
          obtain ⟨rfl, rfl⟩ | ⟨-, hu, hv⟩ := hchild v u k hv
          · obtain ⟨rfl, -⟩ | ⟨-, hu, -⟩ := hchild v' u k' hv'
            · rfl
            · exact absurd rfl hu
          · obtain ⟨-, rfl⟩ | ⟨-, -, hv'⟩ := hchild v' u k' hv'
            · exact absurd rfl hu
            · exact hp.once v v' u k k' hv hv'
        · exact hp.saw
        · exact hp.closed
      · intro u _ hu
        by_cases hunp : u = np
        · subst hunp
          rw [hun]
          simp
        · rwa [hother u hunp] at hu
      · intro h
        rw [hother t hnt] at h
        exact absurd hl h
    · exact ⟨none, s, if_neg hm, G t, hsame, hn⟩

theorem Refs.give {H D : Tid → List Fid} {np : Tid} (h : Refs s H D) (hne : np ≠ t)
    (hnone : s.ofile np fd = none) (hH : H t = f :: a) :
    Refs (s.setOfile np fd (some f)) (update H t a) D := by
  have hfill : ∀ x, own (s.setOfile np fd (some f)) np x = own s np x + [f].count x := own_fill hnone
  have hother : ∀ u ≠ np, (s.setOfile np fd (some f)).ofile u = s.ofile u :=
    fun u hu => setOfile_other hu
  have hle : ∀ u x, (D u).count x ≤ own (s.setOfile np fd (some f)) u x := by
    intro u x
    have := h.debt u x
    by_cases hu : u = np
    · subst hu
      rw [hfill]
      omega
    · rwa [own_congr (hother u hu)]
  constructor
  · intro x
    -- first the child's share grows, then that of `t` shrinks
    have hc : ∀ u ≠ np, net (s.setOfile np fd (some f)) H D u x = net s H D u x := by
      intro u hu
      unfold net
      rw [own_congr (hother u hu)]
    have ht : ∀ u ≠ t, net (s.setOfile np fd (some f)) (update H t a) D u x =
        net (s.setOfile np fd (some f)) H D u x := by
      intro u hu
      unfold net
      rw [update_of_ne hu]
    have h1 := sum_change np hc
    have h2 := sum_change t ht
    have h3 : net (s.setOfile np fd (some f)) H D np x = net s H D np x + [f].count x := by
      have := h.debt np x
      unfold net
      rw [hfill]
      omega
    have h4 : net (s.setOfile np fd (some f)) (update H t a) D t x + [f].count x =
        net (s.setOfile np fd (some f)) H D t x := by
      have := hle t x
      have hcons : (f :: a).count x = a.count x + [f].count x := by
        rw [List.count_cons, List.count_singleton]
      unfold net
      rw [update_self, hH, hcons]
      omega
    have h5 := h.ref x
    show (s.file x).ref = _
    omega
  · exact hle
  · exact h.zero

theorem ok_setChild {k : Unit → P α} {np : Tid} {v : List (Fd × Fid)} {j : ℕ} (hb : g.busy)
    (hd : g.debt = []) (hf : g.fresh = []) (hc : g.child = some (np, j)) (hj : j ≤ fd.val)
    (hh : g.hold = f :: a)
    (hW : ∀ x ∈ v, x ∈ g.saw)
    (hk : FtOk t (k ()) { g with hold := a, child := some (np, fd.val + 1), saw := v } Q) :
    FtOk t (.act (.setChild np fd f) k) g Q := by
  apply ok_done
  rintro s G hi rfl -
  have hl := hi.proc_live hb
  have hp := hi.procs
  have hemb := hp.embryo t np j hc
  have hnt : np ≠ t := by
    rintro rfl
    rw [hl] at hemb
    cases hemb
  have hnone : s.ofile np fd = none := hp.rest t np j hc fd hj
  have hGnp : G np = {} := hi.live np (by rw [hemb]; nofun)
  have hpos : 1 ≤ net s (fun u => (G u).hold) (fun u => (G u).debt) t f := by
    rw [net_eq, hd, hh, List.count_cons_self, List.count_nil]
    omega
  have hother : ∀ u ≠ np, (s.setOfile np fd (some f)).ofile u = s.ofile u :=
    fun u hu => setOfile_other hu
  refine ⟨(), s.setOfile np fd (some f), rfl,
    { G t with hold := a, child := some (np, fd.val + 1), saw := v },
    hi.step ?_ ?_ (hi.ends_same rfl rfl (fun _ => rfl) rfl rfl rfl rfl)
      (hi.inodes_same rfl (fun _ => rfl) rfl rfl) ?_ (fun _ _ h => h) (fun h => absurd hl h), hk⟩
  · rw [update_same Gh.debt rfl]
    exact hi.refs.give hnt hnone hh
  · rw [update_same Gh.debt rfl, update_same Gh.fresh rfl]
    refine ⟨hi.fresh.type, hi.fresh.ref, fun v x hx u hu => ?_⟩
    have hvt : v ≠ t := by
      rintro rfl
      rw [hf] at hx
      cases hx
    have h0 := hi.fresh.mine v x hx u hu
    have hxf : x ≠ f := by
      rintro rfl
      exact hi.fresh.notMem hpos hvt hx
    unfold net at h0 ⊢
    have hown : own (s.setOfile np fd (some f)) u x = own s u x := by
      by_cases hunp : u = np
      · subst hunp
        rw [own_fill hnone, count_ne hxf, Nat.add_zero]
      · exact own_congr (hother u hunp)
    rw [hown]
    by_cases hut : u = t
    · subst hut
      rw [update_self]
      have hc : (G u).hold.count x = a.count x := by rw [hh, List.count_cons_of_ne (Ne.symm hxf)]
      rw [← hc]
      exact h0
    · rw [update_of_ne hut]
      exact h0
  · rw [update_same Gh.closed rfl]
    have hchild : ∀ v u k, update (fun u => (G u).child) t (some (np, fd.val + 1)) v = some (u, k) →
        (v = t ∧ u = np ∧ k = fd.val + 1) ∨ (v ≠ t ∧ u ≠ np ∧ (G v).child = some (u, k)) := by
      intro v u k hv
      by_cases hvt : v = t
      · subst hvt
        rw [update_self] at hv
        cases hv
        exact Or.inl ⟨rfl, rfl, rfl⟩
      · rw [update_of_ne hvt] at hv
        refine Or.inr ⟨hvt, ?_, hv⟩
        rintro rfl
        exact hvt (hp.once t v u _ _ hc hv)
    constructor
    · intro u hu y
      have hunp : u ≠ np := by
        rintro rfl
        rw [show (s.setOfile u fd (some f)).proc u = s.proc u from rfl, hemb] at hu
        rcases hu with hu | hu <;> cases hu
      rw [hother u hunp]
      exact hp.empty u hu y
    · intro v u k hv
      obtain ⟨-, rfl, -⟩ | ⟨-, -, hv⟩ := hchild v u k hv
      · exact hemb
      · exact hp.embryo v u k hv
    · intro v u k hv y hy
      obtain ⟨-, rfl, rfl⟩ | ⟨-, hu, hv⟩ := hchild v u k hv
      · rw [setOfile_self, if_neg (by rintro rfl; omega)]
        exact hp.rest t u _ hc y (by omega)
      · rw [hother u hu]
        exact hp.rest v u k hv y hy
    · intro v v' u k k' hv hv'
      obtain ⟨rfl, rfl, -⟩ | ⟨-, hu, hv⟩ := hchild v u k hv
      · obtain ⟨rfl, -⟩ | ⟨-, hu, -⟩ := hchild v' u k' hv'
        · rfl
        · exact absurd rfl hu
      · obtain ⟨-, rfl, -⟩ | ⟨-, -, hv'⟩ := hchild v' u k' hv'
        · exact absurd rfl hu
        · exact hp.once v v' u k k' hv hv'
    · intro u x hx
      by_cases hut : u = t
      · subst hut
        rw [update_self] at hx
        rw [hother u (Ne.symm hnt)]
        exact hp.saw u x (hW x hx)
      · rw [update_of_ne hut] at hx
        have hunp : u ≠ np := by
          rintro rfl
          rw [hGnp] at hx
          cases hx
        rw [hother u hunp]
        exact hp.saw u x hx
    · intro u x hx
      have hunp : u ≠ np := by
        rintro rfl
        rw [hGnp] at hx
        exact absurd hx (Nat.not_lt_zero _)
      rw [hother u hunp]
      exact hp.closed u x hx

theorem ok_start {k : Unit → P α} {np : Tid} {c : ℕ} (hb : g.busy) (hc : g.child = some (np, c))
    (hk : FtOk t (k ()) { g with child := none } Q) : FtOk t (.act (.start np) k) g Q := by
  apply ok_done
  rintro s G hi rfl -
  have hl := hi.proc_live hb
  have hp := hi.procs
  have hemb := hp.embryo t np c hc
  have hother : ∀ u ≠ np, (s.setProc np .live).proc u = s.proc u :=
    fun u hu => update_of_ne hu ..
  have hself : (s.setProc np .live).proc np = .live := update_self ..
  have hnt : t ≠ np := by
    rintro rfl
    rw [hl] at hemb
    cases hemb
  refine ⟨(), s.setProc np .live, rfl, { G t with child := none },
    hi.step (hi.refs_same rfl rfl rfl (fun _ => rfl) hi.refs.zero)
      (hi.fresh_same rfl rfl rfl rfl fun _ _ _ => rfl)
      (hi.ends_same rfl rfl (fun _ => rfl) rfl rfl rfl rfl) (hi.inodes_same rfl (fun _ => rfl) rfl rfl)
      ?_ ?_ ?_, hk⟩
  · rw [update_same Gh.saw rfl, update_same Gh.closed rfl]
    have hchild : ∀ v u k, update (fun u => (G u).child) t none v = some (u, k) →
        u ≠ np ∧ (G v).child = some (u, k) := by
      intro v u k hv
      rcases update_cases hv with ⟨-, hv⟩ | ⟨hvt, hv⟩
      · cases hv
      · refine ⟨?_, hv⟩
        rintro rfl
        exact hvt (hp.once t v u _ _ hc hv)
    constructor
    · intro u hu
      by_cases hunp : u = np
      · subst hunp
        rw [hself] at hu
        rcases hu with hu | hu <;> cases hu
      · rw [hother u hunp] at hu
        exact hp.empty u hu
    · intro v u k hv
      obtain ⟨hu, hv⟩ := hchild v u k hv
      rw [hother u hu]
      exact hp.embryo v u k hv
    · intro v u k hv
      exact hp.rest v u k (hchild v u k hv).2
    · intro v v' u k k' hv hv'
      exact hp.once v v' u k k' (hchild v u k hv).2 (hchild v' u k' hv').2
    · exact hp.saw
    · exact hp.closed
  · intro u _ hu
    by_cases hunp : u = np
    · subst hunp
      exact absurd hself hu
    · rwa [hother u hunp] at hu
  · intro h
    rw [hother t hnt] at h
    exact absurd hl h

/-! ## Exit and wait -/

theorem ok_exit {k : Unit → P α} (hg : g = { busy := true, closed := nofile })
    (hk : FtOk t (k ()) {} Q) : FtOk t (.act .exit k) g Q := by
  apply ok_done
  rintro s G hi hG -
  rw [hg] at hG
  have hl := hi.proc_live (t := t) (by rw [hG])
  have hp := hi.procs
  have hother : ∀ u ≠ t, (s.setProc t .zombie).proc u = s.proc u :=
    fun u hu => update_of_ne hu ..
  refine ⟨(), s.setProc t .zombie, rfl, {},
    hi.step (hi.refs_same (by rw [hG]) (by rw [hG]) rfl (fun _ => rfl) hi.refs.zero)
      (hi.fresh_same (by rw [hG]) (by rw [hG]) (by rw [hG]) rfl fun _ _ _ => rfl)
      (hi.ends_same (by rw [hG]) (by rw [hG]) (fun _ => rfl) rfl rfl rfl rfl)
      (hi.inodes_same (by rw [hG]) (fun _ => rfl) rfl rfl) ?_ ?_ fun _ => rfl, hk⟩
  · rw [update_same Gh.child (by rw [hG]), update_same Gh.saw (by rw [hG])]
    constructor
    · intro u hu
      by_cases hut : u = t
      · subst hut
        intro fd
        exact hp.closed u fd (by rw [hG]; exact fd.isLt)
      · rw [hother u hut] at hu
        exact hp.empty u hu
    · intro v u k hv
      have hut : u ≠ t := by
        rintro rfl
        have := hp.embryo v u k hv
        rw [hl] at this
        cases this
      rw [hother u hut]
      exact hp.embryo v u k hv
    · exact hp.rest
    · exact hp.once
    · exact hp.saw
    · intro u fd hu
      by_cases hut : u = t
      · rw [hut, update_self] at hu
        exact absurd hu (Nat.not_lt_zero _)
      · rw [update_of_ne hut] at hu
        exact hp.closed u fd hu
  · intro u hut hu
    rwa [hother u hut] at hu

theorem ok_reap {k : Unit → P α} {pp : Tid} (hb : g.busy) (hk : FtOk t (k ()) g Q) :
    FtOk t (.act (.reap pp) k) g Q := by
  apply ok_done
  rintro s G hi rfl -
  have hl := hi.proc_live hb
  have hp := hi.procs
  refine ⟨(), if s.proc pp = .zombie then s.setProc pp .unused else s, rfl, G t, ?_, hk⟩
  split_ifs with hz
  · have hother : ∀ u ≠ pp, (s.setProc pp .unused).proc u = s.proc u :=
      fun u hu => update_of_ne hu ..
    have htp : t ≠ pp := by
      rintro rfl
      rw [hl] at hz
      cases hz
    refine hi.step (hi.refs_same rfl rfl rfl (fun _ => rfl) hi.refs.zero)
      (hi.fresh_same rfl rfl rfl rfl fun _ _ _ => rfl)
      (hi.ends_same rfl rfl (fun _ => rfl) rfl rfl rfl rfl) (hi.inodes_same rfl (fun _ => rfl) rfl rfl)
      ?_ ?_ ?_
    · rw [update_same Gh.child rfl, update_same Gh.saw rfl, update_same Gh.closed rfl]
      refine ⟨fun u hu => ?_, fun v u k hv => ?_, hp.rest, hp.once, hp.saw, hp.closed⟩
      · by_cases hup : u = pp
        · subst hup
          exact hp.empty u (Or.inr hz)
        · rw [hother u hup] at hu
          exact hp.empty u hu
      · have hup : u ≠ pp := by
          rintro rfl
          have := hp.embryo v u k hv
          rw [hz] at this
          cases this
        rw [hother u hup]
        exact hp.embryo v u k hv
    · intro u _ hu
      by_cases hup : u = pp
      · subst hup
        rw [hz]
        nofun
      · rwa [hother u hup] at hu
    · intro h
      rw [hother t htp] at h
      exact absurd hl h
  · rw [update_eq_self]
    exact hi

end Xv6.Ftable
