import Xv6.Proc.Rules

/-!
# Rules for the process table

The rules for the actions of `allocproc`, `kfork`, `kexit`, `kwait` and `kkill`.
-/

namespace Xv6.Proc

open Function Xv6.Threads

variable {ncpu : ℕ} {lk : ℕ → ℕ} {nz : Bool} {α : Type} {p q : ProcId} {g : Gh} {Q : α → Gh → Prop}
  {s : St ncpu} {G : Thr ncpu → Gh} {c : Fin ncpu}

/-! ## Killing -/

theorem ok_getKilled {k : Bool → P α} (hb : g.kind = .busy)
    (hk : ∀ b, OwnOk ncpu lk nz p (k b) { g with marked := b } Q) :
    OwnOk ncpu lk nz p (.act (.getKilled p) k) g Q := by
  apply ok_act
  rintro s G c h rfl hc b s' ⟨⟩
  refine ⟨_, ?_, hk _⟩
  cases id h
  constructor <;> (try simp only [update_proj, update_eq_self]) <;> try assumption
  · apply h.marks.learn
    intro p' hp' hk
    cases hp'
    exact hk
  · exact h.calm.busy hb

theorem Inv.mark (h : Inv lk nz s G) (hst : nz → s.state q ≠ .unused) {e : Event}
    (he : (∃ pid, e = .kill pid q (s.state q)) ∨ e = .fault q) :
    Inv lk nz { s with killed := update s.killed q true, hist := e :: s.hist } G := by
  cases id h
  constructor <;> try assumption
  · rcases he with ⟨pid, rfl⟩ | rfl <;> exact h.zombies.event (fun _ => rfl) h.zombies.ok
  · refine h.kills.mark hst ?_ ?_ ?_
    · rcases he with ⟨pid, rfl⟩ | rfl <;> simp [blamed]
    · intro r hr
      rcases he with ⟨pid, rfl⟩ | rfl <;> simp [blamed, Ne.symm hr]
    · intro hn
      rcases he with ⟨pid, rfl⟩ | rfl
      · exact ⟨hst hn, h.kills.ok hn⟩
      · exact h.kills.ok hn
  · exact h.marks.set fun he => by cases he
  · rcases he with ⟨pid, rfl⟩ | rfl <;> exact h.frees
  · rcases he with ⟨pid, rfl⟩ | rfl <;> exact h.awakes

theorem ok_kill {k : Bool → P α} {pid : ℤ} (hp : g.pick = none) (hl : g.held (.proc q))
    (hm : g.mine = .running) (hnz : nz → pid ≠ 0) (hk : ∀ b, OwnOk ncpu lk nz p (k b) g Q) :
    OwnOk ncpu lk nz p (.act (.kill q pid) k) g Q := by
  apply ok_act
  rintro s G c h rfl hc b s' he
  simp only [execOn] at he
  split at he
  · rename_i hpid
    cases he
    refine ⟨_, ?_, hk true⟩
    rw [update_eq_self]
    have hst : nz → s.state q ≠ .unused := by
      intro hn hu
      exact hnz hn (hpid.symm.trans (h.kills.unused hn hu).2)
    have h1 := h.mark hst (.inl ⟨pid, rfl⟩)
    by_cases hsl : s.state q = .sleeping
    · rw [if_pos hsl]
      refine h1.rouse hc hp hl ?_ hsl
      intro heq
      cases heq
      rw [h.state_eq hc, hm] at hsl
      cases hsl
    · rw [if_neg hsl]
      exact h1
  · cases he
    refine ⟨_, ?_, hk false⟩
    rwa [update_eq_self]

theorem ok_setKilled {k : Unit → P α} (hm : g.mine = .running)
    (hk : OwnOk ncpu lk nz p (k ()) g Q) : OwnOk ncpu lk nz p (.act .setKilled k) g Q := by
  apply ok_act
  rintro s G c h rfl hc b s' ⟨⟩
  refine ⟨_, ?_, hk⟩
  rw [update_eq_self]
  refine h.mark ?_ (.inr rfl)
  intro _ hu
  rw [h.state_eq hc, hm] at hu
  cases hu

theorem ok_noteKilled {k : Unit → P α} (hm : g.marked)
    (hk : OwnOk ncpu lk nz p (k ()) g Q) : OwnOk ncpu lk nz p (.act .noteKilled k) g Q := by
  apply ok_act
  rintro s G c h rfl hc b s' ⟨⟩
  refine ⟨_, ?_, hk⟩
  rw [update_eq_self]
  cases id h
  constructor <;> try assumption
  · exact h.zombies.event (fun _ => rfl) h.zombies.ok
  · exact h.kills.event (fun _ _ _ hb => hb) fun hn => ⟨h.kills.blame hn (h.marks p hm), h.kills.ok hn⟩

/-! ## Creating a process -/

theorem ok_isUnused {k : Bool → P α} (hb : g.kind = .busy) (hl : g.held (.proc q))
    (hm : g.mine = .running) (hbare : g.bare = none) (hzi : g.zinfo = none)
    (ht : OwnOk ncpu lk nz p (k true) { g with know := update g.know q (some .unused) } Q)
    (hf : OwnOk ncpu lk nz p (k false) g Q) :
    OwnOk ncpu lk nz p (.act (.isUnused q) k) g Q := by
  apply ok_act
  rintro s G c h rfl hc b s' ⟨⟩
  by_cases hu : s.state q = .unused
  · rw [decide_eq_true hu]
    refine ⟨_, ?_, ht⟩
    have hne : p ≠ q := by
      intro heq
      rw [← heq, h.state_eq hc, hm] at hu
      cases hu
    cases id h
    constructor <;> (try simp only [update_proj, update_eq_self]) <;> try assumption
    · refine h.know.learn (.inl rfl) hu hl hne ?_
      intro r hr hrq
      by_contra hrp
      have := (h.locks.excl hc hl hr (by simpa using hrp)).1
      cases this
      exact hrq rfl
    · refine h.family.setKnow (by simp) ?_
      intro hk
      have := h.know.eq hk
      rw [hu] at this
      cases this
    · exact h.zombies.setKnow (by simp [hzi])
    · exact h.cwds.setKnow (by simp [hbare])
    · exact h.calm.busy hb
  · rw [decide_eq_false hu]
    refine ⟨_, ?_, hf⟩
    rwa [update_eq_self]

theorem ok_takePid {k : ℤ → P α} (hk : ∀ pid, OwnOk ncpu lk nz p (k pid) g Q) :
    OwnOk ncpu lk nz p (.act .takePid k) g Q := by
  refine ok_same ?_ hk
  intro c s b s' he
  cases he
  rfl

theorem Inv.busy_eq (h : Inv lk nz s G) (hc : s.on c = .proc p) (hp : (G (.proc p)).pick = none)
    (hl : (G (.proc p)).held (.proc q)) (hne : p ≠ q) (hst : s.state q ≠ .running) :
    s.busy q = false := by
  have hno := h.not_busy hc hp hl (by simpa using hne) hst
  simp [St.busy, hno]

theorem ok_setUsed {k : Unit → P α} {pid : ℤ} (hb : g.kind = .busy) (hp : g.pick = none)
    (hl : g.held (.proc q)) (hq : g.know q = some .unused) (hbare : g.bare = none)
    (hzi : g.zinfo = none)
    (hk : OwnOk ncpu lk nz p (k ())
      { g with know := update g.know q (some .used), bare := some q } Q) :
    OwnOk ncpu lk nz p (.act (.setUsed q pid) k) g Q := by
  apply ok_act
  rintro s G c h rfl hc b s' ⟨⟩
  refine ⟨_, ?_, hk⟩
  have hst : s.state q = .unused := h.know.eq hq
  have hne : p ≠ q := by
    obtain ⟨r, hr, hrq⟩ := h.know.owner hq
    cases hr
    exact hrq
  have hbusy := h.busy_eq hc hp hl hne (by simp [hst])
  have hoff := h.not_busy hc hp hl (by simpa using hne) (by simp [hst])
  cases id h
  constructor <;> (try simp only [update_proj, update_eq_self]) <;> try assumption
  · exact h.cpus.setState (by simp [hst]) (by simp) fun c' => (hoff c').1
  · exact h.know.change (by simp [hq]) (.inr ⟨rfl, rfl⟩)
  · exact h.family.setUsed h.know hq
  · have hz' := h.zombies.setFields h.know (q := q) (by simp [hst]) pid (s.xstate q)
    rw [update_eq_self] at hz'
    refine ((hz'.setState ?_ ?_).setKnow ?_).event (fun _ => rfl) h.zombies.ok
    · simp [hst]
    · simp
    · simp [hzi]
  · exact h.kills.create hst pid
  · exact ⟨hbusy, h.frees⟩
  · exact h.waits.setState (by simp) (by simp)
  · exact h.conds.setState (by simp)
  · refine ((h.cwds.setState ?_).setKnow ?_).setBare ?_
    · simp
    · simp [hbare]
    · intro r x hr hx
      cases hr
      cases hx
      refine ⟨h.cwds.none (.inl hst), ?_⟩
      rw [update_self, update_self]
  · refine h.kinds.setState (fun _ => h.kinds.new (.inl hst)) ?_
    intro he
    cases he
  · exact h.calm.busy hb

theorem ok_setContext {k : Unit → P α} (hq : g.know q = some .used)
    (hk : OwnOk ncpu lk nz p (k ()) g Q) : OwnOk ncpu lk nz p (.act (.setContext q) k) g Q := by
  apply ok_act
  rintro s G c h rfl hc b s' ⟨⟩
  refine ⟨_, ?_, hk⟩
  rw [update_eq_self]
  have hpark := h.kinds.new (.inr (h.know.eq hq))
  cases id h
  constructor <;> try assumption
  apply h.kinds.setCtx
  simp [hpark]

/-- `freeproc` by the thread that creates or reaps the slot, for any history that its actions
record. -/
theorem Inv.free (h : Inv lk nz s G) (hc : s.on c = .proc p) (hb : (G (.proc p)).kind = .busy)
    (hp : (G (.proc p)).pick = none) (hl : (G (.proc p)).held (.proc q))
    (hq : (G (.proc p)).know q = some .used ∨ (G (.proc p)).know q = some .zombie)
    (hchild : (G (.proc p)).child ≠ some q) (hkid : ∀ r ≠ p, (G (.proc r)).kid ≠ some q)
    (hcwd : s.cwd q = none) {hist : List Event} (hf : FreesOk hist) (ha : AwakesOk hist)
    (hkl : Kills nz s.state s.killed s.pid hist)
    (hz : Zombies (update s.state q .unused) (update s.pid q 0)
      (update s.xstate q 0) (.freed q false :: hist)
      (update (fun u => (G u).know) (.proc p) (update (G (.proc p)).know q none))
      (update (fun u => (G u).zinfo) (.proc p) none)) :
    Inv lk nz ({ s with hist := hist }.free q) (update G (.proc p)
      { G (.proc p) with
        know := update (G (.proc p)).know q none, bare := none, zinfo := none,
        kid := none }) := by
  have hkn : (G (.proc p)).know q ≠ none := by rcases hq with hq | hq <;> simp [hq]
  have hst : s.state q = .used ∨ s.state q = .zombie := hq.imp h.know.eq h.know.eq
  have hrun : s.state q ≠ .running := by rcases hst with hs | hs <;> simp [hs]
  have hne : p ≠ q := by
    obtain ⟨st, hs⟩ := Option.ne_none_iff_exists'.1 hkn
    obtain ⟨r, hr, hrq⟩ := h.know.owner hs
    cases hr
    exact hrq
  have hbusy := h.busy_eq hc hp hl hne hrun
  have hoff := h.not_busy hc hp hl (by simpa using hne) hrun
  have hpark : (G (.proc q)).kind = .parked := by
    rcases hst with hs | hs
    · exact h.kinds.new (.inr hs)
    · refine (h.kinds.zombie hs).resolve_right ?_
      rintro ⟨c', hc'⟩
      exact (hoff c').1 hc'
  have hcalmq := h.calm.eq_parked hpark
  cases id h
  unfold St.free
  constructor <;> (try simp only [update_proj, update_eq_self]) <;> try assumption
  · exact h.cpus.setState hrun (by simp) fun c' => (hoff c').1
  · exact h.know.change hkn (.inl rfl)
  · refine (h.family.setKid (x := none) fun r hr => by cases hr).free h.know hkn hchild ?_ ?_
    · intro r
      by_cases hrp : r = p
      · rw [hrp, update_self]
        simp
      · rw [update_proc_ne hrp]
        exact hkid r hrp
    · rw [hcalmq]
      rfl
  · rw [show ({ s with hist := hist } : St ncpu).busy q = s.busy q from rfl, hbusy]
    exact hz
  · rw [show ({ s with hist := hist } : St ncpu).busy q = s.busy q from rfl, hbusy]
    exact hkl.free.event (fun _ _ _ hb => hb) hkl.ok
  · apply h.marks.set
    intro _
    rw [hcalmq]
    rfl
  · exact ⟨hbusy, hf⟩
  · exact ((h.waits.setState (by simp) (by simp)).clearChan).unparent
  · exact (h.conds.setState (by simp)).clearChan
  · have hcw' := h.cwds.setBare (t := .proc p) (x := none) (by simp)
    exact (hcw'.setState fun _ => hcwd).setKnow (by simp)
  · exact h.kinds.setState (fun _ => hpark) fun _ => .inl hpark
  · exact h.calm.busy hb

theorem ok_free {k : Unit → P α} (hb : g.kind = .busy) (hp : g.pick = none)
    (hl : g.held (.proc q)) (hq : g.know q = some .used) (hbare : g.bare = some q)
    (hzi : g.zinfo = none) (hchild : g.child = none)
    (hk : OwnOk ncpu lk nz p (k ())
      { g with know := update g.know q none, bare := none, zinfo := none, kid := none } Q) :
    OwnOk ncpu lk nz p (.act (.free q) k) g Q := by
  apply ok_act
  rintro s G c h rfl hc b s' ⟨⟩
  refine ⟨_, ?_, hk⟩
  have hst := h.know.eq hq
  refine h.free hc hb hp hl (.inl hq) (by simp [hchild]) ?_ (h.cwds.bare_eq hbare).1 h.frees h.awakes
    h.kills ?_
  · intro r hr hkid
    have hborn := h.family.born hq
    rw [(h.family.kid_eq hkid).1] at hborn
    rcases hborn with hn | hn
    · cases hn
    · cases hn
      exact hr rfl
  · have hz' := h.zombies.setFields h.know (q := q) (by simp [hst]) 0 0
    refine (((hz'.setState ?_ ?_).setKnow ?_).event (e := .freed q false) (fun _ => rfl)
      h.zombies.ok).clearInfo
    · simp [hst]
    · simp
    · simp [hzi]

theorem ok_setParent {k : Unit → P α} (hb : g.kind = .busy) (hm : g.mine = .running)
    (hw : g.held .wait) (hq : g.know q = some .used) (hkid : g.kid = none)
    (hrep : ∀ r, g.rep r = false)
    (hk : OwnOk ncpu lk nz p (k ()) { g with child := some q } Q) :
    OwnOk ncpu lk nz p (.act (.setParent q) k) g Q := by
  apply ok_act
  rintro s G c h rfl hc b s' ⟨⟩
  refine ⟨_, ?_, hk⟩
  have hst := h.know.eq hq
  have hrun : s.state p = .running := (h.state_eq hc).trans hm
  have hcalmq := h.calm.eq_parked (h.kinds.new (.inr hst))
  have hex : ∀ r, (G (.proc r)).held .wait → r = p := by
    intro r hr
    have := h.excl_wait hc hw r hr
    cases this
    rfl
  cases id h
  constructor <;> (try simp only [update_proj, update_eq_self]) <;> try assumption
  · refine h.family.setParent h.know hq hex (.inr (.inr hrun)) hkid hrep ?_
    rw [hcalmq]
    rfl
  · refine h.waits.setParent (by simp [hst]) ?_
    rw [hcalmq]
    rfl
  · exact h.calm.busy hb

theorem ok_setRunnable {k : Unit → P α} (hb : g.kind = .busy) (hp : g.pick = none)
    (hl : g.held (.proc q)) (hc : g.child = some q) (hbare : g.bare = none)
    (hzi : g.zinfo = none)
    (hk : OwnOk ncpu lk nz p (k ())
      { g with know := update g.know q none, child := none } Q) :
    OwnOk ncpu lk nz p (.act (.setRunnable q) k) g Q := by
  apply ok_act
  intro s G c h hg hon b s' he
  subst hg
  cases he
  refine ⟨_, ?_, hk⟩
  have hq := (h.family.child_eq hc).2
  have hst := h.know.eq hq
  have hne : p ≠ q := by
    obtain ⟨r, hr, hrq⟩ := h.know.owner hq
    cases hr
    exact hrq
  have hoff := h.not_busy hon hp hl (by simpa using hne) (by simp [hst])
  cases id h
  constructor <;> (try simp only [update_proj, update_eq_self]) <;> try assumption
  · exact h.cpus.setState (by simp [hst]) (by simp) fun c' => (hoff c').1
  · exact h.know.change (by simp [hq]) (.inl rfl)
  · exact h.family.setRunnable h.know hc
  · exact (h.zombies.setState (by simp [hst]) (by simp)).setKnow (by simp [hzi])
  · exact h.kills.setState (by simp)
  · exact h.waits.setState (by simp) (by simp)
  · exact h.conds.setState (by simp)
  · exact (h.cwds.setState (by simp)).setKnow (by simp [hbare])
  · exact h.kinds.setAlive (.inr (.inl rfl))
  · exact h.calm.busy hb

/-! ## Exit -/

theorem Inv.only_wait (h : Inv lk nz s G) (hc : s.on c = .proc p)
    (hw : (G (.proc p)).held .wait) (r : ProcId) (hr : (G (.proc r)).held .wait) :
    r = p := by
  have := h.excl_wait hc hw r hr
  cases this
  rfl

/-- The ghost value after a child has been given to init, which has to be woken. -/
def Gh.adopted (g : Gh) (p q : ProcId) : Gh :=
  { g with
    rep := update g.rep q true
    due := fun ch r => if ch = .proc initproc ∧ r ≠ p then true else g.due ch r }

theorem ok_adopt {k : Bool → P α} (hb : g.kind = .busy) (hi : p ≠ initproc)
    (hw : g.held .wait) (hkn : g.know q = none) (hchild : g.child = none)
    (hkid : g.kid = none) (ht : OwnOk ncpu lk nz p (k true) (g.adopted p q) Q)
    (hf : OwnOk ncpu lk nz p (k false) { g with rep := update g.rep q true } Q) :
    OwnOk ncpu lk nz p (.act (.adopt q) k) g Q := by
  apply ok_act
  rintro s G c h rfl hc b s' he
  change (if s.parent q = some p then _ else _) = _ at he
  have hex := h.only_wait hc hw
  split at he
  · rename_i hpar
    cases he
    refine ⟨_, ?_, ht⟩
    cases id h
    unfold Gh.adopted
    constructor <;> (try simp only [update_proj, update_eq_self]) <;> try assumption
    · exact h.family.adopt hpar hi hw hex (by simp [hkn]) hchild hkid
    · have hwt' : Waits s.on s.state s.chan s.parent (fun u => (G u).held) (fun u => (G u).woken)
          (fun u => (G u).noz) (fun u => (G u).scan) (update (fun u => (G u).due) (.proc p)
            fun ch r => if ch = .proc initproc ∧ r ≠ p then true else (G (.proc p)).due ch r) := by
        refine h.waits.setDue (fun _ _ _ => hw) ?_
        intro r hd hf
        split at hf
        · cases hf
        · rw [hd] at hf
          cases hf
      refine hwt'.adopt (t := .proc p) ?_ ?_
      · rw [update_self, if_pos ⟨rfl, Ne.symm hi⟩]
      · intro r hr
        rw [hex r hr]
        exact hi
    · refine h.conds.setDue ?_ ?_
      · intro i r hd
        rw [if_neg (by simp)] at hd
        exact h.conds.due_held hd
      · intro i r hd hf
        rw [if_neg (by simp), hd] at hf
        cases hf
    · exact h.calm.busy hb
  · rename_i hpar
    cases he
    refine ⟨_, ?_, hf⟩
    cases id h
    constructor <;> (try simp only [update_proj, update_eq_self]) <;> try assumption
    · exact h.family.learnRep hw hpar
    · exact h.calm.busy hb

/-- A process other than init has a parent. -/
theorem ok_getParent {k : Option ProcId → P α} (hb : g.kind = .busy) (hi : p ≠ initproc)
    (hw : g.held .wait) (hm : g.mine = .running)
    (hk : ∀ r ≠ p, OwnOk ncpu lk nz p (k (some r)) { g with par := some r } Q) :
    OwnOk ncpu lk nz p (.act .getParent k) g Q := by
  apply ok_act
  rintro s G c h rfl hc b s' ⟨⟩
  have hrun : s.state p = .running := (h.state_eq hc).trans hm
  obtain ⟨r, hr⟩ := Option.ne_none_iff_exists'.1 (h.family.has (.inl (.inr (.inr hrun))) hi)
  have hrp : r ≠ p := fun he => h.family.irr (he ▸ hr)
  rw [hr]
  refine ⟨_, ?_, hk r hrp⟩
  cases id h
  constructor <;> (try simp only [update_proj, update_eq_self]) <;> try assumption
  · exact h.family.learnPar hw hr
  · exact h.calm.busy hb

/-- A process becomes a zombie when it has given its children away and has woken its parent. -/
theorem ok_die {k : Unit → P α} {status : ℤ} (hb : g.kind = .busy) (hi : p ≠ initproc)
    (hw : g.held .wait) (hl : g.held (.proc p)) (hm : g.mine = .running)
    (hrep : ∀ q, g.rep q) (hwk : g.woken) (hcwd : g.cwd = none)
    (hk : OwnOk ncpu lk nz p (k ()) { g with mine := .zombie } Q) :
    OwnOk ncpu lk nz p (.act (.die status) k) g Q := by
  apply ok_act
  rintro s G c h rfl hc b s' ⟨⟩
  refine ⟨_, ?_, hk⟩
  have hold := h.holder_eq hc hl
  have hex := h.only_wait hc hw
  have hst : s.state p = .running := (h.state_eq hc).trans hm
  cases id h
  constructor <;> (try simp only [update_proj, update_eq_self]) <;> try assumption
  · exact h.cpus.setSelf hc hold (by simp)
  · exact h.know.setState (.inr (.inr hst))
  · exact h.family.die (.inr (.inr hst)) hi fun q => (h.family.rep_ne (hrep q)).1
  · exact h.zombies.die h.know (by simp [hst]) status
  · exact (h.kills.setState (by simp)).event (fun _ _ _ hb => hb) h.kills.ok
  · exact h.waits.die hwk hex h.family.irr
  · exact h.conds.setState (by simp)
  · exact h.cwds.setState fun _ => (h.refs.mine hb).2.1.trans hcwd
  · refine h.kinds.setState ?_ fun _ => .inr ⟨c, hc⟩
    intro he
    simp at he
  · exact h.calm.busy hb

/-! ## Wait -/

theorem ok_isChild {k : Bool → P α} (hb : g.kind = .busy) (hw : g.held .wait)
    (ht : p ≠ q → OwnOk ncpu lk nz p (k true) { g with kid := some q } Q)
    (hf : OwnOk ncpu lk nz p (k false) { g with scan := update g.scan q true } Q) :
    OwnOk ncpu lk nz p (.act (.isChild q) k) g Q := by
  apply ok_act
  rintro s G c h rfl hc b s' ⟨⟩
  by_cases hpar : s.parent q = some p
  · rw [decide_eq_true hpar]
    refine ⟨_, ?_, ht fun he => h.family.irr (he ▸ hpar)⟩
    cases id h
    constructor <;> (try simp only [update_proj, update_eq_self]) <;> try assumption
    · apply h.family.setKid
      intro r hr
      cases hr
      exact ⟨hpar, hw⟩
    · exact h.calm.busy hb
  · rw [decide_eq_false hpar]
    refine ⟨_, ?_, hf⟩
    cases id h
    constructor <;> (try simp only [update_proj, update_eq_self]) <;> try assumption
    · exact h.waits.learnScan hw fun he => absurd he hpar
    · exact h.calm.busy hb

theorem ok_isZombie {k : Option (ℤ × ℤ) → P α} (hb : g.kind = .busy) (hw : g.held .wait)
    (hl : g.held (.proc q)) (hne : p ≠ q) (hbare : g.bare = none) (hzi : g.zinfo = none)
    (hs : ∀ pid status, OwnOk ncpu lk nz p (k (some (pid, status)))
      { g with
        know := update g.know q (some .zombie), zinfo := some (q, pid, status) } Q)
    (hn : OwnOk ncpu lk nz p (k none)
      { g with scan := update g.scan q true, kid := none } Q) :
    OwnOk ncpu lk nz p (.act (.isZombie q) k) g Q := by
  apply ok_act
  rintro s G c h rfl hc b s' ⟨⟩
  by_cases hst : s.state q = .zombie
  · rw [if_pos hst]
    refine ⟨_, ?_, hs _ _⟩
    cases id h
    constructor <;> (try simp only [update_proj, update_eq_self]) <;> try assumption
    · refine h.know.learn (.inr rfl) hst hl hne ?_
      intro r hr hrq
      by_contra hrp
      have := (h.locks.excl hc hl hr (by simpa using hrp)).1
      cases this
      exact hrq rfl
    · refine h.family.setKnow (by simp) ?_
      intro hk
      have := h.know.eq hk
      rw [hst] at this
      cases this
    · refine (h.zombies.setKnow (by simp [hzi])).learn ?_
      rw [update_self, update_self]
    · exact h.cwds.setKnow (by simp [hbare])
    · exact h.calm.busy hb
  · rw [if_neg hst]
    refine ⟨_, ?_, hn⟩
    cases id h
    constructor <;> (try simp only [update_proj, update_eq_self]) <;> try assumption
    · exact h.family.setKid fun r hr => by cases hr
    · exact h.waits.learnScan hw fun _ => hst
    · exact h.calm.busy hb

theorem ok_reap {k : Unit → P α} {pid status : ℤ} (hb : g.kind = .busy) (hp : g.pick = none)
    (hl : g.held (.proc q)) (hzi : g.zinfo = some (q, pid, status)) (hkid : g.kid = some q)
    (hchild : g.child = none)
    (hk : OwnOk ncpu lk nz p (k ())
      { g with know := update g.know q none, bare := none, zinfo := none, kid := none } Q) :
    OwnOk ncpu lk nz p (.act (.reap q pid status) k) g Q := by
  apply ok_act
  rintro s G c h rfl hc b s' ⟨⟩
  refine ⟨_, ?_, hk⟩
  have hq := (h.zombies.info hzi).1
  have hst := h.know.eq hq
  obtain ⟨hpar, hw⟩ := h.family.kid_eq hkid
  rw [hpar]
  refine h.free hc hb hp hl (.inr hq) (by simp [hchild]) ?_ (h.cwds.none (.inr hst)) h.frees h.awakes
    (h.kills.event (fun _ _ _ hb => hb) h.kills.ok) (h.zombies.reap h.know hzi)
  intro r hr hkr
  exact hr (h.only_wait hc hw r (h.family.kid_eq hkr).2)

theorem ok_waitFail {k : Unit → P α} {pid status : ℤ} (hb : g.kind = .busy)
    (hzi : g.zinfo = some (q, pid, status))
    (hk : OwnOk ncpu lk nz p (k ())
      { g with know := update g.know q none, zinfo := none, kid := none } Q) :
    OwnOk ncpu lk nz p (.act (.waitFail q) k) g Q := by
  apply ok_act
  rintro s G c h rfl hc b s' ⟨⟩
  refine ⟨_, ?_, hk⟩
  have hq := (h.zombies.info hzi).1
  have hst := h.know.eq hq
  have hbare : (G (.proc p)).bare ≠ some q := by
    intro he
    have := (h.cwds.bare_eq he).2
    rw [hq] at this
    cases this
  cases id h
  constructor <;> (try simp only [update_proj, update_eq_self]) <;> try assumption
  · exact h.know.forget
  · exact (h.family.setKnow (by simp) (by simp [hq])).setKid fun r hr => by cases hr
  · have hz' := (h.zombies.clearInfo (t := .proc p)).setKnow (t := .proc p) (q := q) (x := none)
      (by simp)
    refine hz'.event (fun _ => rfl) ⟨?_, h.zombies.ok⟩
    rw [h.zombies.stat q, if_pos hst]
    rfl
  · exact h.kills.event (fun _ _ _ hb => hb) h.kills.ok
  · exact h.cwds.setKnow fun he => absurd he hbare
  · exact h.calm.busy hb

/-! ## What is known under `wait_lock` -/

/-- The ghost value without what `wait_lock` protects. -/
def Gh.forget (g : Gh) : Gh :=
  { g with
    kid := none, par := none, rep := fun _ => false, woken := false, scan := fun _ => false }

theorem Inv.forget (h : Inv lk nz s G) (hb : (G (.proc p)).kind = .busy) :
    Inv lk nz s (update G (.proc p) (G (.proc p)).forget) := by
  cases id h
  unfold Gh.forget
  constructor <;> (try simp only [update_proj, update_eq_self]) <;> try assumption
  · exact ((h.family.setKid (x := none) fun r hr => by cases hr).clearPar).clearRep
  · exact (h.waits.setWoken (b := false) fun _ _ he => by cases he).clearScan
  · exact h.calm.busy hb

/-- A thread that has found no zombie child under `wait_lock` goes to sleep. -/
theorem Inv.setNoz (h : Inv lk nz s G) (hc : s.on c = .proc p) (hb : (G (.proc p)).kind = .busy)
    (hw : (G (.proc p)).held .wait) (hs : ∀ q, (G (.proc p)).scan q) :
    Inv lk nz s (update G (.proc p)
      { G (.proc p) with noz := true, scan := fun _ => false }) := by
  have hex := h.only_wait hc hw
  cases id h
  constructor <;> (try simp only [update_proj, update_eq_self]) <;> try assumption
  · exact (h.waits.setNoz hc hw hex h.family.irr hs).clearScan
  · exact h.calm.busy hb

end Xv6.Proc
