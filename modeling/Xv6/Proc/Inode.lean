import Xv6.Proc.Life

/-!
# Rules for sleep-locks and references to inodes
-/

namespace Xv6.Proc

open Function Xv6.Threads

variable {ncpu : ℕ} {lk : ℕ → ℕ} {nz : Bool} {α : Type} {p q : ProcId} {g : Gh} {Q : α → Gh → Prop}
  {s : St ncpu} {G : Thr ncpu → Gh} {c : Fin ncpu} {i : InodeId}

theorem ok_getDead {k : Bool → P α} (hk : ∀ b, OwnOk ncpu lk nz p (k b) g Q) :
    OwnOk ncpu lk nz p (.act (.getDead i) k) g Q := by
  refine ok_same ?_ hk
  intro c s b s' he
  cases he
  rfl

theorem ok_setDead {k : Unit → P α} {d : Bool} (hk : OwnOk ncpu lk nz p (k ()) g Q) :
    OwnOk ncpu lk nz p (.act (.setDead i d) k) g Q := by
  refine ok_same ?_ fun _ => hk
  intro c s b s' he
  cases he
  rfl

theorem ok_getLocked {k : Option ProcId → P α} (hk : ∀ b, OwnOk ncpu lk nz p (k b) g Q) :
    OwnOk ncpu lk nz p (.act (.getLocked i) k) g Q := by
  refine ok_same ?_ hk
  intro c s b s' he
  cases he
  rfl

theorem ok_getRef {k : ℤ → P α} (hk : ∀ r, OwnOk ncpu lk nz p (k r) g Q) :
    OwnOk ncpu lk nz p (.act (.getRef i) k) g Q := by
  refine ok_same ?_ hk
  intro c s b s' he
  cases he
  rfl

theorem ok_seeRef {k : ℤ → P α} (hb : g.kind = .busy) (hs : g.spins = none)
    (hl : g.held .itable) (hr : 1 ≤ g.refs i)
    (h1 : OwnOk ncpu lk nz p (k 1) { g with last := some i } Q)
    (hn : ∀ r ≠ 1, OwnOk ncpu lk nz p (k r) g Q) :
    OwnOk ncpu lk nz p (.act (.getRef i) k) g Q := by
  apply ok_act
  rintro s G c h rfl hc b s' ⟨⟩
  by_cases hone : s.ref i = 1
  · rw [hone]
    refine ⟨_, ?_, h1⟩
    have hrefs := h.refs_eq hb i
    cases id h
    constructor <;> (try simp only [update_proj, update_eq_self]) <;> try assumption
    · refine h.refs.setLast hs ?_
      intro i' hi'
      cases hi'
      exact ⟨hone, hl, hrefs ▸ hr⟩
    · exact h.calm.busy hb
  · refine ⟨_, ?_, hn _ hone⟩
    rwa [update_eq_self]

theorem ok_getOwn {k : ℕ → P α} (hb : g.kind = .busy) (hk : OwnOk ncpu lk nz p (k (g.own i)) g Q) :
    OwnOk ncpu lk nz p (.act (.getOwn i) k) g Q := by
  apply ok_act
  rintro s G c h rfl hc b s' ⟨⟩
  have hown := (h.refs.mine hb).1
  rw [hown]
  refine ⟨_, ?_, hk⟩
  rwa [update_eq_self]

theorem ok_getCwd {k : Option InodeId → P α} (hb : g.kind = .busy)
    (hk : OwnOk ncpu lk nz p (k g.cwd) g Q) : OwnOk ncpu lk nz p (.act .getCwd k) g Q := by
  apply ok_act
  rintro s G c h rfl hc b s' ⟨⟩
  have hcwd := (h.refs.mine hb).2.1
  rw [hcwd]
  refine ⟨_, ?_, hk⟩
  rwa [update_eq_self]

/-! ## Sleep-locks -/

/-- The test of `acquiresleep`. It succeeds for a process that has seen that it holds the only
reference to the inode and has not locked it. -/
theorem ok_tryLock {k : Bool → P α} (hb : g.kind = .busy) (hl : g.held (.slk i))
    (ht : g.sl i = false → OwnOk ncpu lk nz p (k true) { g with sl := update g.sl i true } Q)
    (hf : (g.last = some i → g.sl i ∧ g.refs i = 1) → OwnOk ncpu lk nz p (k false) g Q) :
    OwnOk ncpu lk nz p (.act (.tryLock i) k) g Q := by
  apply ok_act
  rintro s G c h rfl hc b s' he
  simp only [execOn, execProc] at he
  split at he
  · rename_i r hr
    cases he
    refine ⟨_, by rwa [update_eq_self], hf ?_⟩
    intro hlast
    obtain ⟨hone, -, hp⟩ := h.refs.last_ok hlast
    obtain ⟨heq, hrefs⟩ := h.refs.only hone hp (h.refs.locked hr)
    rw [heq] at hr
    rw [h.refs_eq hb] at hrefs
    exact ⟨((h.refs.mine hb).2.2 i).1 hr, hrefs⟩
  · rename_i hr
    cases he
    have hsl : (G (.proc p)).sl i = false := by
      cases hsl : (G (.proc p)).sl i with
      | false => rfl
      | true =>
        rw [((h.refs.mine hb).2.2 i).2 hsl] at hr
        cases hr
    refine ⟨_, ?_, ht hsl⟩
    cases id h
    constructor <;> (try simp only [update_proj, update_eq_self]) <;> try assumption
    · exact h.refs.setLocked (b := true) (fun _ => ⟨hr, h.refs.slk hl⟩) fun he => by cases he
    · exact h.calm.busy hb

theorem ok_unlock {k : Unit → P α} (hb : g.kind = .busy) (hsl : g.sl i)
    (hk : OwnOk ncpu lk nz p (k ()) { g with sl := update g.sl i false } Q) :
    OwnOk ncpu lk nz p (.act (.unlock i) k) g Q := by
  apply ok_act
  rintro s G c h rfl hc b s' ⟨⟩
  refine ⟨_, ?_, hk⟩
  have hlock := ((h.refs.mine hb).2.2 i).2 hsl
  cases id h
  constructor <;> (try simp only [update_proj, update_eq_self]) <;> try assumption
  · exact h.refs.setLocked (b := false) (fun he => by cases he) fun _ => hlock
  · exact h.calm.busy hb

theorem Inv.clearLast (h : Inv lk nz s G) (hb : (G (.proc p)).kind = .busy)
    (hs : (G (.proc p)).spins = none) :
    Inv lk nz s (update G (.proc p) { G (.proc p) with last := none }) := by
  cases id h
  constructor <;> (try simp only [update_proj, update_eq_self]) <;> try assumption
  · exact h.refs.setLast hs fun _ he => by cases he
  · exact h.calm.busy hb

/-! ## References -/

theorem Inv.last_ne (h : Inv lk nz s G) (hc : s.on c = .proc p)
    (hl : (G (.proc p)).held .itable) (hlast : (G (.proc p)).last ≠ some i) (q : ProcId) :
    (G (.proc q)).last ≠ some i := by
  intro hq
  have heq := h.locks.excl' hc hl (h.refs.last_ok hq).2.1 (by simp)
  cases heq
  exact hlast hq

theorem ok_refInc {k : Unit → P α} (hb : g.kind = .busy) (hl : g.held .itable)
    (hlast : g.last = none)
    (hk : OwnOk ncpu lk nz p (k ()) { g with own := update g.own i (g.own i + 1) } Q) :
    OwnOk ncpu lk nz p (.act (.refInc i) k) g Q := by
  apply ok_act
  rintro s G c h rfl hc b s' ⟨⟩
  refine ⟨_, ?_, hk⟩
  have hlne := h.last_ne (i := i) hc hl (by simp [hlast])
  have hown := (h.refs.mine hb).1
  cases id h
  constructor <;> (try simp only [update_proj, update_eq_self]) <;> try assumption
  · refine h.refs.setRefs (p := p) ?_ ?_ ?_ ?_ hlne ?_
    · simp only [Proc.refs, update_self]
      push_cast
      ring
    · intro p' i' hne
      by_cases hp : p' = p
      · subst hp
        simp only [Proc.refs, update_self]
        rw [update_of_ne (hne.resolve_left (by simp))]
      · simp only [Proc.refs, update_of_ne hp]
    · intro _
      simp only [Proc.refs, update_self]
      omega
    · intro _
      simp only [Proc.refs, update_self]
      omega
    · intro r hr
      refine ⟨?_, (h.refs.mine hr).2.1⟩
      by_cases hrp : r = p
      · subst hrp
        rw [update_self, update_self, hown]
      · rw [update_of_ne hrp, update_proc_ne hrp]
        exact (h.refs.mine hr).1
  · exact h.calm.busy hb

theorem ok_refDec {k : Unit → P α} (hb : g.kind = .busy) (hs : g.spins = none)
    (hl : g.held .itable) (hsk : g.held (.slk i) = false) (hown : 1 ≤ g.own i)
    (hsl : g.sl i → 2 ≤ g.refs i)
    (hk : OwnOk ncpu lk nz p (k ())
      { g with own := update g.own i (g.own i - 1), last := none } Q) :
    OwnOk ncpu lk nz p (.act (.refDec i) k) g Q := by
  apply ok_act
  rintro s G c h rfl hc b s' ⟨⟩
  refine ⟨_, ?_, hk⟩
  have hrefs := h.refs_eq hb i
  have hex : ∀ q, (G (.proc q)).last ≠ none → q = p := by
    intro q hq
    obtain ⟨j, hj⟩ := Option.ne_none_iff_exists'.1 hq
    have heq := h.locks.excl' hc hl (h.refs.last_ok hj).2.1 (by simp)
    cases heq
    rfl
  have hmine := h.refs.mine hb
  cases id h
  have hrf' := h.refs.setLast (p := p) (x := none) hs fun _ he => by cases he
  constructor <;> (try simp only [update_proj, update_eq_self]) <;> try assumption
  · refine hrf'.setRefs (p := p) ?_ ?_ ?_ ?_ ?_ ?_
    · simp only [Proc.refs, update_self, hmine.1]
      push_cast [Nat.cast_sub hown]
      ring
    · intro p' i' hne
      by_cases hp : p' = p
      · subst hp
        simp only [Proc.refs, update_self]
        rw [update_of_ne (hne.resolve_left (by simp))]
      · simp only [Proc.refs, update_of_ne hp]
    · intro hlock
      have h2 := hsl ((hmine.2.2 i).1 hlock)
      rw [← hrefs] at h2
      simp only [Proc.refs, update_self] at h2 ⊢
      omega
    · intro he
      rw [hsk] at he
      cases he
    · intro q hq
      obtain ⟨-, ⟨⟩⟩ | ⟨hqp, hq⟩ := update_cases hq
      exact hqp (congrArg _ (hex q (by rw [hq]; simp)))
    · intro r hr
      refine ⟨?_, (h.refs.mine hr).2.1⟩
      by_cases hrp : r = p
      · subst hrp
        rw [update_self, update_self, hmine.1]
      · rw [update_of_ne hrp, update_proc_ne hrp]
        exact (h.refs.mine hr).1
  · exact h.calm.busy hb

theorem ok_dropCwd {k : Unit → P α} (hb : g.kind = .busy) (hs : g.spins = none)
    (hl : g.held .itable) (hsk : g.held (.slk i) = false) (hcwd : g.cwd = some i)
    (hsl : g.sl i → 2 ≤ g.refs i)
    (hk : OwnOk ncpu lk nz p (k ()) { g with cwd := none, last := none } Q) :
    OwnOk ncpu lk nz p (.act (.dropCwd i) k) g Q := by
  apply ok_act
  rintro s G c h rfl hc b s' ⟨⟩
  refine ⟨_, ?_, hk⟩
  have hrefs := h.refs_eq hb i
  have hex : ∀ q, (G (.proc q)).last ≠ none → q = p := by
    intro q hq
    obtain ⟨j, hj⟩ := Option.ne_none_iff_exists'.1 hq
    have heq := h.locks.excl' hc hl (h.refs.last_ok hj).2.1 (by simp)
    cases heq
    rfl
  have hmine := h.refs.mine hb
  have hcw : s.cwd p = some i := hmine.2.1.trans hcwd
  cases id h
  have hrf' := h.refs.setLast (p := p) (x := none) hs fun _ he => by cases he
  constructor <;> (try simp only [update_proj, update_eq_self]) <;> try assumption
  · refine hrf'.setRefs (p := p) ?_ ?_ ?_ ?_ ?_ ?_
    · simp [Proc.refs, hcw]
      ring
    · intro p' i' hne
      by_cases hp : p' = p
      · subst hp
        have hi : i ≠ i' := Ne.symm (hne.resolve_left (by simp))
        simp [Proc.refs, hcw, hi]
      · simp only [Proc.refs, update_of_ne hp]
    · intro hlock
      have h2 := hsl ((hmine.2.2 i).1 hlock)
      rw [← hrefs] at h2
      simp only [Proc.refs, update_self, hcw, if_pos] at h2 ⊢
      omega
    · intro he
      rw [hsk] at he
      cases he
    · intro q hq
      obtain ⟨-, ⟨⟩⟩ | ⟨hqp, hq⟩ := update_cases hq
      exact hqp (congrArg _ (hex q (by rw [hq]; simp)))
    · intro r hr
      refine ⟨(h.refs.mine hr).1, ?_⟩
      by_cases hrp : r = p
      · subst hrp
        rw [update_self, update_self]
      · rw [update_of_ne hrp, update_proc_ne hrp]
        exact (h.refs.mine hr).2.1
  · exact h.cwds.setCwd (by simp) (by simp)
  · exact h.calm.busy hb

theorem ok_dupCwd {k : Unit → P α} (hb : g.kind = .busy) (hl : g.held .itable)
    (hlast : g.last = none) (hbare : g.bare = some q)
    (hk : OwnOk ncpu lk nz p (k ()) { g with bare := none } Q) :
    OwnOk ncpu lk nz p (.act (.dupCwd q) k) g Q := by
  apply ok_act
  rintro s G c h rfl hc b s' he
  obtain ⟨hnone, hq⟩ := h.cwds.bare_eq hbare
  have hst := h.know.eq hq
  have hpark := h.kinds.new (.inr hst)
  simp only [execOn, execProc] at he
  split at he
  · cases he
    refine ⟨_, ?_, hk⟩
    cases id h
    constructor <;> (try simp only [update_proj, update_eq_self]) <;> try assumption
    · exact h.cwds.setBare fun _ _ _ he => by cases he
    · exact h.calm.busy hb
  · rename_i i hi
    cases he
    refine ⟨_, ?_, hk⟩
    have hlne := h.last_ne (i := i) hc hl (by simp [hlast])
    cases id h
    constructor <;> (try simp only [update_proj, update_eq_self]) <;> try assumption
    · refine h.refs.setRefs (p := q) ?_ ?_ ?_ ?_ hlne ?_
      · simp [Proc.refs, hnone]
        ring
      · intro p' i' hne
        by_cases hp : p' = q
        · subst hp
          have hne' : i ≠ i' := Ne.symm (hne.resolve_left (by simp))
          simp [Proc.refs, hnone, hne']
        · simp only [Proc.refs, update_of_ne hp]
      · intro _
        simp [Proc.refs]
      · intro _
        simp [Proc.refs]
      · intro r hr
        have hrq : r ≠ q := by
          intro he
          rw [he, hpark] at hr
          cases hr
        rw [update_of_ne hrq]
        exact ⟨(h.refs.mine hr).1, (h.refs.mine hr).2.1⟩
    · refine (h.cwds.setBare (t := .proc p) (x := none) fun _ _ _ he => by cases he).setCwd ?_ ?_
      · simp [hst]
      · intro _ r hr
        obtain ⟨-, ⟨⟩⟩ | ⟨hrp, hr⟩ := update_cases hr
        have heq := h.know.one (by rw [(h.cwds.bare_eq hr).2]; simp) (u := .proc p) (by rw [hq]; simp)
        cases heq
        exact hrp rfl
    · exact h.calm.busy hb

end Xv6.Proc
