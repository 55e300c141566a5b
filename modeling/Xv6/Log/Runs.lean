import Xv6.Log.Recover

/-!
# Runs of the log

Every configuration that the clients reach after `fsinit` satisfies the invariant, in every mode.
From it follow crash atomicity, coherence of the buffer cache, the bounds on log space and buffers,
and that nobody waits for the log in vain.
-/

namespace Xv6.Log

open Function Finset Xv6.Threads

variable {T : Type} [DecidableEq T] [Fintype T]
variable {m : Mode} {dev start : ℕ} {d d₀ : ℕ → Block} {s s₀ : St T} {G : T → Gh} {st : Stage}
  {t : T} {c : Conf T Act Act.Ret (St T)}

/-! ## Calls -/

/-- A thread may learn what it holds. -/
theorem InvAt.learn (h : InvAt m dev start d₀ s G st) {kn : BufId → Option ℕ}
    (hkn : ∀ i b, kn i = some b → (s.buf i).lock = some t ∧ (s.buf i).blockno = b) :
    InvAt m dev start d₀ s (update G t { G t with kn := kn }) st := by
  have hs : Same s s := by constructor <;> intros <;> rfl
  refine h.frame hs rfl rfl (h.quiet t) ?_ ?_ (fun hdis => ?_) (h.wake.same hs rfl rfl rfl)
  · simp only [update_eq_self]
    obtain ⟨h₁, h₂, h₃, h₄, h₅, h₆, h₇, h₈, h₉, h₁₀, h₁₁, h₁₂⟩ := h.bio
    refine ⟨h₁, h₂, h₃, h₄, h₅, fun u i b hu => ?_, h₇, h₈, h₉, h₁₀, h₁₁, h₁₂⟩
    by_cases hut : u = t
    · subst hut
      rw [update_self] at hu
      exact hkn i b hu
    · rw [update_of_ne hut] at hu
      exact h₆ u i b hu
  · rw [update_eq_self]
    exact h.data
  · rw [update_eq_self]
    exact h.coh hdis

/-- The ghost value of an idle client that holds buffer `i`, or nothing that matters. -/
theorem InvAt.resting (h : InvAt m dev start d₀ s G st) (hr : (G t).Rest)
    {kn : BufId → Option ℕ}
    (hkn : ∀ i b, kn i = some b → (s.buf i).lock = some t ∧ (s.buf i).blockno = b) :
    InvAt m dev start d₀ s (update G t { kn := kn, inOp := (s.op t).isSome }) st := by
  have heq : ({ kn := kn, inOp := (s.op t).isSome } : Gh) = { G t with kn := kn } := by
    obtain ⟨hp, hraw, hrel, hst⟩ := hr
    dsimp only
    rw [← h.inOp t, hp, hraw, hrel, hst, h.quiet t hst]
  rw [heq]
  exact h.learn hkn

theorem InvAt.resting_one (h : InvAt m dev start d₀ s G st) (hr : (G t).Rest) {i : BufId}
    (hl : (s.buf i).lock = some t) :
    InvAt m dev start d₀ s (update G t
      { kn := update (fun _ => none) i (some (s.buf i).blockno),
        inOp := (s.op t).isSome }) st := by
  apply h.resting hr
  intro j b hj
  rcases update_cases hj with ⟨rfl, hj⟩ | ⟨-, hj⟩
  · exact ⟨hl, Option.some.inj hj⟩
  · cases hj

theorem ok_call (hstart : start + logBlocks < 2 ^ 32) (s : St T) (G : T → Gh) (t : T) (c : Call)
    (hI : Inv m dev start d₀ s G) (hr : (G t).Rest) (hmay : May c t s) :
    ∃ g', Inv m dev start d₀ s (update G t g') ∧
      LogOk m dev start d₀ t (code c s) g' fun _ g => g.Rest := by
  obtain ⟨st, h⟩ := hI
  have hnone : InvAt m dev start d₀ s
      (update G t { kn := fun _ => none, inOp := (s.op t).isSome }) st := h.resting hr nofun
  cases c with
  | beginOp =>
    have ho : (s.op t).isSome = false := by
      have : (s.op t).isNone := hmay
      simpa using this
    rw [ho] at hnone
    exact ⟨_, ⟨st, hnone⟩, ok_beginOp rfl rfl fun b => ⟨rfl, rfl, rfl, rfl⟩⟩
  | endOp =>
    have ho : (s.op t).isSome := hmay
    rw [ho] at hnone
    refine ⟨_, ⟨st, hnone⟩, ?_⟩
    show LogOk m dev start d₀ t (endOp s.dev s.start) _ _
    rw [h.devEq, h.startEq]
    apply ok_endOpAct rfl rfl
    · exact ⟨rfl, rfl, rfl, rfl⟩
    · intro l gr hlen hhome
      apply ok_commit (q := fun _ => perform .endCommit) hstart hlen hhome
      intro st' hst'
      exact ok_endCommit hst' rfl ⟨rfl, rfl, rfl, rfl⟩
  | bread b =>
    have hb : b < 2 ^ 32 := hmay
    refine ⟨_, ⟨st, hnone⟩, ?_⟩
    show LogOk m dev start d₀ t (bread s.dev b >>= fun _ => .ret ()) _ _
    rw [h.devEq]
    exact ok_bread hb rfl rfl rfl rfl fun i _ => ⟨rfl, rfl, rfl, rfl⟩
  | store i x =>
    obtain ⟨hl, ho, hlog⟩ : (s.buf i).lock = some t ∧ (s.op t).isSome ∧
      ¬ InLog s.start (s.buf i).blockno := hmay
    rw [h.startEq] at hlog
    have hone := h.resting_one hr hl
    rw [ho] at hone
    exact ⟨_, ⟨st, hone⟩, ok_store (by dsimp only; rw [update_self]) hlog rfl rfl rfl ⟨rfl, rfl, rfl, rfl⟩⟩
  | logWrite i =>
    obtain ⟨hl, ho, hlog⟩ : (s.buf i).lock = some t ∧ (s.op t).isSome ∧
      ¬ InLog s.start (s.buf i).blockno := hmay
    rw [h.startEq] at hlog
    have hone := h.resting_one hr hl
    rw [ho] at hone
    exact ⟨_, ⟨st, hone⟩, ok_logWrite (by dsimp only; rw [update_self]) hlog rfl rfl ⟨rfl, rfl, rfl, rfl⟩⟩
  | brelse i =>
    have hl : (s.buf i).lock = some t := hmay
    exact ⟨_, ⟨st, h.resting_one hr hl⟩,
      ok_brelse (k := Prog.ret) (by dsimp only; rw [update_self]) rfl rfl rfl rfl ⟨rfl, rfl, rfl, rfl⟩⟩

/-! ## The state after `fsinit` -/

theorem Held.users_nil (h : Held dev t s ∅) : s.users = [] := by
  apply List.eq_nil_iff_forall_not_mem.2
  intro p hp
  have := h.users p
  rw [if_neg fun h => notMem_empty _ h.2] at this
  exact absurd (List.count_pos_iff.2 hp) (by omega)

theorem booted_inv (hdev : dev ≠ 0) (hh : HeadOk start (d start)) (hB : Booted dev start d s) :
    InvAt m dev start s.disk s (fun _ => {}) .client := by
  obtain ⟨t, s', he, rfl⟩ := hB
  obtain ⟨x, s₁, he₁, hat, hw, -⟩ := (runs_fsinit (t := t) hdev hh).solo
  rw [he] at he₁
  cases he₁
  obtain ⟨hheld, hstill, hlh⟩ := hat
  have hlock : ∀ i u, (s'.buf i).lock ≠ some u := by
    intro i u hu
    rw [hheld.lock, if_neg (notMem_empty i)] at hu
    cases hu
  have hop : ∀ u, s'.op u = none := fun u => by rw [hstill.op]; rfl
  have husers := hheld.users_nil
  refine ⟨hstill.dev, hstill.start, fun _ => Or.inl rfl, fun u v hu => absurd rfl hu,
    fun h => absurd rfl h, fun _ _ => rfl, fun u => ?_, ?_, ?_, ?_, ?_, ?_, ⟨hw, fun _ _ => rfl⟩, rfl, fun _ => ?_, fun _ => ?_, ?_⟩
  · show false = (s'.op u).isSome
    rw [hop u]
    rfl
  · refine ⟨hheld.mem, hheld.nodup, hheld.uniq, fun p hp => ?_, fun u i hu => absurd hu (hlock i u),
      by simp, by simp, by simp, by simp, fun u i hu => absurd hu (hlock i u), fun i => ?_,
      by rintro _ ⟨⟩⟩
    · rw [show ({ s' with hist := [] } : St T).users = [] from husers] at hp
      exact absurd hp List.not_mem_nil
    · show (s'.buf i).refcnt = ((s'.users.map Prod.snd).count i : ℤ) +
        if (s'.buf i).dev = dev ∧ pinned [] (s'.buf i).blockno = true then 1 else 0
      rw [husers, hheld.ref, if_neg (notMem_empty i), if_neg (by simp [pinned])]
      rfl
  · refine ⟨?_, fun b hb => ?_, ?_, ?_, fun h => absurd rfl h, fun b => ?_, fun b => rfl,
      by rintro _ ⟨⟩⟩
    · show s'.lh.Nodup
      rw [hlh]; exact List.nodup_nil
    · have hb' : b ∈ s'.lh := hb
      rw [hlh] at hb'
      exact absurd hb' List.not_mem_nil
    · show s'.lh.length ≤ logBlocks
      rw [hlh]; exact Nat.zero_le _
    · show s'.committing ↔ _
      rw [hstill.committing]
      exact ⟨by rintro ⟨⟩, fun h => absurd rfl h⟩
    · show false ↔ b ∈ s'.lh
      rw [hlh]
      exact ⟨by simp, fun h => absurd h List.not_mem_nil⟩
  · show s'.outstanding = ∑ u, busy (s'.op u)
    rw [hstill.outstanding]
    simp only [hop]
    show (0 : ℤ) = ∑ _u : T, (0 : ℤ)
    rw [sum_const_zero]
  · refine ⟨fun h => absurd rfl h, fun _ b => ?_, rfl, by rintro _ _ _ ⟨⟩, by rintro _ _ ⟨⟩,
      fun u o hu => ?_⟩
    · show (none : Option Block).isSome ↔ b ∈ s'.lh
      rw [hlh]
      exact ⟨by simp, fun h => absurd h List.not_mem_nil⟩
    · have hu' : s'.op u = some o := hu
      rw [hop u] at hu'
      cases hu'
  · exact ⟨by rintro _ _ ⟨⟩, fun i hi _ hv => Or.inl (hheld.fresh i hi hv), by simp⟩
  · exact ⟨fun i hi hv _ => Or.inl (hheld.fresh i hi hv), by rintro _ ⟨⟩, fun _ _ _ => rfl,
      by rintro _ _ ⟨⟩, trivial⟩
  · constructor
    · show (s'.lh.length : ℤ) + ∑ u, room (s'.op u) ≤ logBlocks
      rw [hlh]
      simp only [hop]
      show (0 : ℤ) + ∑ _u : T, (0 : ℤ) ≤ logBlocks
      rw [sum_const_zero]
      exact Int.natCast_nonneg _
    · intro u o hu
      have hu' : s'.op u = some o := hu
      rw [hop u] at hu'
      cases hu'
  · have hasleep : ∀ u, s'.asleep u = false := fun u => by rw [hstill.asleep]; rfl
    refine ⟨fun _ _ => hlh, fun u hu => ?_, fun u _ => hasleep u⟩
    have hu' : s'.asleep u := hu
    rw [hasleep u] at hu'
    cases hu'

/-- **The invariant of every run**: it holds in every configuration that clients of mode `m` reach
after `fsinit`. -/
theorem reach_good (hdev : dev ≠ 0) (hstart : start + logBlocks < 2 ^ 32)
    (hh : HeadOk start (d start)) (hB : Booted dev start d s₀)
    (hr : Reach (sys (cond m)) (idle s₀) c) :
    Good (sys (cond m)) (Inv m dev start s₀.disk) (pan m) Gh.Rest c := by
  apply reach_ok (ok_call hstart) _ hr
  exact ⟨fun _ => {}, ⟨.client, booted_inv hdev hh hB⟩, fun t => ⟨rfl, rfl, rfl, rfl⟩⟩

theorem cond_default (a : Act) (t : T) (s : St T) : cond {} a t s := by
  cases a <;> simp [cond]

theorem sys_default : sys (cond {}) = (sys fun _ _ _ => True : Sys T Act Act.Ret Call (St T)) := by
  unfold sys
  congr 1
  funext a t s
  exact eq_true (cond_default a t s)

/-! ## Concrete runs -/

/-- The state in which the clients start, computed. -/
def bootState (dev start : ℕ) (d : ℕ → Block) (t : T) : Option (St T) :=
  (solo exec t (fsinit dev start) (binit dev start d)).map fun r => { r.2 with hist := [] }

instance (m : Mode) (c : Call) (t : T) (s : St T) : Decidable ((sys (cond m)).may c t s) :=
  inferInstanceAs (Decidable (May c t s))

instance (m : Mode) (a : Act) (t : T) (s : St T) : Decidable ((sys (cond m)).cond a t s) :=
  inferInstanceAs (Decidable (cond m a t s))

/-- A schedule of clients after `fsinit`, computed. -/
def runFrom (m : Mode) (dev start : ℕ) (d : ℕ → Block) (t : T) (l : List (T × Option Call)) :
    Option (Conf T Act Act.Ret (St T)) :=
  (bootState dev start d t).bind fun s => run (sys (cond m)) l (idle s)

theorem exists_reach {l : List (T × Option Call)} {p : Conf T Act Act.Ret (St T) → Bool}
    (h : (runFrom m dev start d t l).map p = some true) :
    ∃ s₀ c, Booted dev start d s₀ ∧ Reach (sys (cond m)) (idle s₀) c ∧ p c := by
  obtain ⟨c, hc, hp⟩ := Option.map_eq_some_iff.1 h
  obtain ⟨s₀, hs, hrun⟩ := Option.bind_eq_some_iff.1 hc
  obtain ⟨r, hr, rfl⟩ := Option.map_eq_some_iff.1 hs
  exact ⟨_, c, ⟨t, r.2, hr, rfl⟩, reach_of_run hrun, hp⟩

theorem exists_dead {l : List (T × Option Call)} {msg : String}
    (h : (runFrom m dev start d t l).bind Conf.msg = some msg) :
    ∃ s₀ s' : St T, Booted dev start d s₀ ∧ Reach (sys (cond m)) (idle s₀) (.dead msg s') := by
  obtain ⟨c, hc, hm⟩ := Option.bind_eq_some_iff.1 h
  obtain ⟨s₀, hs, hrun⟩ := Option.bind_eq_some_iff.1 hc
  obtain ⟨r, hr, rfl⟩ := Option.map_eq_some_iff.1 hs
  cases c with
  | live s thr => cases hm
  | dead msg' s' =>
    cases hm
    exact ⟨_, s', ⟨t, r.2, hr, rfl⟩, reach_of_run hrun⟩

def zeroDisk : ℕ → Block := fun _ _ => 0

/-- Client `t` reads block `b` into buffer `i`, logs it and releases it. -/
def logBlock (t : Fin 3) (b : ℕ) (i : BufId) : List (Fin 3 × Option Call) :=
  [(t, some (.bread b)), (t, none), (t, none), (t, none), (t, some (.logWrite i)), (t, none),
    (t, some (.brelse i)), (t, none), (t, none)]

/-- Three operations log ten blocks each. -/
def fillLog : List (Fin 3 × Option Call) :=
  ((List.finRange 3).flatMap fun t => [(t, some .beginOp), (t, none)]) ++
    (List.range 30).flatMap fun n =>
      logBlock (Fin.ofNat 3 (n / 10)) (100 + n) (Fin.ofNat 30 (n + 2))

/-- One operation logs two blocks and ends; its commit takes `n` steps. -/
def oneOp (n : ℕ) : List (Fin 3 × Option Call) :=
  [(0, some .beginOp), (0, none)] ++ logBlock 0 100 (Fin.ofNat 30 2) ++
    logBlock 0 101 (Fin.ofNat 30 3) ++ [(0, some .endOp)] ++ List.replicate n (0, none)

/-! ## Crash atomicity -/

/-- What recovery makes of the disk of a run: the groups closed so far, or all but the newest. -/
theorem InvAt.crash (h : InvAt m dev start d₀ s G st) :
    HeadOk start (s.disk start) ∧ ∃ gs, gs <:+ groups s.hist ∧ commits s.hist ≤ gs.length ∧
      ∀ b, ¬ InLog start b → recovered start s.disk b = applyGroups gs d₀ b := by
  have hcount := h.grp.count
  have hdisk := h.disk
  have hdom := h.grp.dom
  cases st with
  | client =>
    obtain ⟨hw, hh⟩ := hdisk
    refine ⟨headOk_of_empty hw, groups s.hist, List.suffix_refl _, le_of_eq hcount.symm, ?_⟩
    rw [recovered_empty hw]
    exact hh
  | wlog l gr k =>
    obtain ⟨-, -, hw, hh, -, -⟩ := hdisk
    refine ⟨headOk_of_empty hw, (groups s.hist).tail, List.tail_suffix _, ?_, ?_⟩
    · rw [List.length_tail, hcount]
      exact le_refl _
    · rw [recovered_empty hw]
      exact hh
  | inst l gr k u =>
    obtain ⟨hlh, hgr, hhead, -, -, hcp, hh⟩ := hdisk
    have hok : HeadOk start (s.disk start) := by
      constructor <;> rw [hhead, ← hlh]
      · exact h.mem.len
      · exact h.mem.nodup
      · exact h.mem.home
    refine ⟨hok, groups s.hist, List.suffix_refl _, by rw [hcount]; exact Nat.le_succ _, fun b hb => ?_⟩
    by_cases hm : b ∈ l
    · obtain ⟨j, hj, rfl⟩ := List.getElem_of_mem hm
      have hj' : l[j]? = some l[j] := List.getElem?_eq_getElem hj
      rw [recovered_mem hok.nodup (by rw [hhead]; exact hj')]
      exact (applyGroups_head (by rw [hgr]; exact hcp j _ hj hj')).symm
    · rw [recovered_not_mem (by rw [hhead]; exact hm), hh b hb,
        if_neg fun e => hm (List.mem_of_mem_take e)]
      refine (applyGroups_tail (Option.not_isSome_iff_eq_none.1 fun e => hm ?_)).symm
      rw [← hlh]
      exact (hdom nofun b).1 e
  | clr l gr =>
    obtain ⟨-, hgr, hhead, hn, hho, hlen, hcp, hh⟩ := hdisk
    have hok : HeadOk start (s.disk start) := by
      constructor <;> rw [hhead]
      · exact hlen
      · exact hn
      · exact hho
    refine ⟨hok, groups s.hist, List.suffix_refl _, by rw [hcount]; exact Nat.le_succ _, fun b hb => ?_⟩
    by_cases hm : b ∈ l
    · obtain ⟨j, hj, rfl⟩ := List.getElem_of_mem hm
      have hj' : l[j]? = some l[j] := List.getElem?_eq_getElem hj
      rw [recovered_mem hok.nodup (by rw [hhead]; exact hj')]
      exact (applyGroups_head (by rw [hgr]; exact hcp j _ hj hj')).symm
    · rw [recovered_not_mem (by rw [hhead]; exact hm)]
      exact hh b hb
  | fin =>
    obtain ⟨-, hw, hh⟩ := hdisk
    refine ⟨headOk_of_empty hw, groups s.hist, List.suffix_refl _, by rw [hcount]; exact Nat.le_succ _, ?_⟩
    rw [recovered_empty hw]
    exact hh

/-- **Crash atomicity**: after a crash at any point of any run, and any number of crashes during
recovery, `fsinit` completes and leaves exactly some first groups on the home blocks, at least those
whose `commit` had returned. The writes of one operation are in one group. -/
theorem crash_atomicity {d' : ℕ → Block} (hstart : start + logBlocks < 2 ^ 32)
    (hh : HeadOk start (d start)) (hB : Booted rootDev start d s₀)
    (hr : Reach (sys fun _ _ _ => True) (idle s₀) c)
    (hc : Crashes rootDev start t c.state.disk d') :
    (∃ s', solo exec t (fsinit rootDev start) (binit rootDev start d') = some ((), s') ∧
      ∃ gs, gs <:+ groups c.state.hist ∧ commits c.state.hist ≤ gs.length ∧
        ∀ b, ¬ InLog start b → s'.disk b = applyGroups gs s₀.disk b) ∧
    ∀ op n n', WroteIn c.state.hist op n → WroteIn c.state.hist op n' → n = n' := by
  rw [← sys_default] at hr
  obtain ⟨G, st, h⟩ := (reach_good (by decide) hstart hh hB hr).inv
  obtain ⟨hok, gs, hgs, hcommits, hrec⟩ := h.crash
  obtain ⟨hok', hsame⟩ := hc.recovering (by decide) hok
  obtain ⟨x, s', hsolo, -, -, hhome⟩ := (runs_fsinit (t := t) (by decide : rootDev ≠ 0) hok').solo
  refine ⟨⟨s', hsolo, gs, hgs, hcommits, fun b hb => ?_⟩, h.grp.once⟩
  rw [hhome b hb, hsame b hb, hrec b hb]

/-- A crash between the commit point and the installation of a group of two blocks. -/
theorem crash_atomicity_committed : ∃ (s₀ : St (Fin 3)) (c : Conf (Fin 3) Act Act.Ret (St (Fin 3))),
    getHead (c.state.disk 2) = [100, 101] ∧ commits c.state.hist = 0 ∧
    ∃ s', solo exec (0 : Fin 3) (fsinit rootDev 2) (binit rootDev 2 c.state.disk) = some ((), s') ∧
      ∃ gs, gs <:+ groups c.state.hist ∧ ∀ b, ¬ InLog 2 b → s'.disk b = applyGroups gs s₀.disk b := by
  obtain ⟨s₀, c, hB, hr, hp⟩ := exists_reach (by decide :
    (runFrom {} rootDev 2 zeroDisk (0 : Fin 3) (oneOp 40)).map (fun c =>
      getHead (c.state.disk 2) == [100, 101] && commits c.state.hist == 0) = some true)
  rw [Bool.and_eq_true, beq_iff_eq, beq_iff_eq] at hp
  rw [sys_default] at hr
  obtain ⟨⟨s', hs', gs, hgs, -, hhome⟩, -⟩ := crash_atomicity (t := (0 : Fin 3)) (by decide)
    (headOk_of_empty (by decide)) hB hr (.refl _)
  exact ⟨s₀, c, hp.1, hp.2, s', hs', gs, hgs, hhome⟩

/-! ## Coherence of the buffer cache -/

theorem InvAt.pinned_of_uninstalled (h : InvAt m dev start d₀ s G st) {b : ℕ}
    (hu : uninstalled s.hist b) : pinned s.hist b := by
  apply (h.mem.pin b).2
  have hw := h.mem.late b hu
  cases st with
  | client => exact hw
  | wlog l gr k => exact hw
  | inst l gr k u =>
    -- a block is unpinned only after it is installed
    have hle : u ≤ k := h.disk.2.2.2.2.1
    exact (List.drop_sublist_drop_left s.lh hle).subset hw
  | clr l gr => exact absurd hw List.not_mem_nil
  | fin => exact absurd hw List.not_mem_nil

theorem InvAt.mem_lh_of_pinned (h : InvAt m dev start d₀ s G st) {b : ℕ}
    (hp : pinned s.hist b) : b ∈ s.lh := by
  have hmem := (h.mem.pin b).1 hp
  cases st with
  | client => exact hmem
  | wlog l gr k => exact hmem
  | inst l gr k u => exact List.mem_of_mem_drop hmem
  | clr l gr => exact absurd hmem List.not_mem_nil
  | fin => exact absurd hmem List.not_mem_nil

theorem InvAt.dev_of_refcnt (h : InvAt m dev start d₀ s G st) {i : BufId}
    (hi : 0 < (s.buf i).refcnt) : (s.buf i).dev = dev := by
  rw [h.bio.ref] at hi
  by_cases hp : (s.buf i).dev = dev ∧ pinned s.hist (s.buf i).blockno = true
  · exact hp.1
  · rw [if_neg hp] at hi
    have hmem : i ∈ s.users.map Prod.snd := List.count_pos_iff.1 (by omega)
    obtain ⟨p, hu, rfl⟩ := List.mem_map.1 hmem
    exact (h.bio.used p hu).1

/-- **Coherence**: with clients that log what they modify, `bread` returns the contents of the last
`log_write`. At most one referenced buffer has a block, a buffer whose contents are not installed is
valid, referenced and never recycled, every pin is undone once, and no reference count is negative. -/
theorem cache_coherence (hstart : start + logBlocks < 2 ^ 32) (hh : HeadOk start (d start))
    (hB : Booted rootDev start d s₀)
    (hr : Reach (sys (cond { disc := true })) (idle s₀) c) :
    BreadsOk start s₀.disk c.state.hist ∧
    (∀ i j, 0 < (c.state.buf i).refcnt → 0 < (c.state.buf j).refcnt →
      (c.state.buf i).dev = (c.state.buf j).dev →
      (c.state.buf i).blockno = (c.state.buf j).blockno → i = j) ∧
    (∀ b, uninstalled c.state.hist b = true → ∃ i, (c.state.buf i).dev = rootDev ∧
      (c.state.buf i).blockno = b ∧ (c.state.buf i).valid = true ∧ 0 < (c.state.buf i).refcnt) ∧
    (∀ dev b t i s', c.state.bget dev b t = .done i s' → (c.state.buf i).dev = rootDev →
      uninstalled c.state.hist (c.state.buf i).blockno = true →
      s'.buf i = { c.state.buf i with refcnt := (c.state.buf i).refcnt + 1 }) ∧
    (∀ b, pins c.state.hist b = unpins c.state.hist b +
      if pinned c.state.hist b = true then 1 else 0) ∧
    (∀ b, pinned c.state.hist b = true → b ∈ c.state.lh) ∧
    ∀ i, 0 ≤ (c.state.buf i).refcnt := by
  obtain ⟨G, st, h⟩ := (reach_good (by decide) hstart hh hB hr).inv
  refine ⟨(h.coh rfl).breads, fun i j hi hj _ hb => ?_, fun b hu => ?_, fun dev b t i s' he hd hu => ?_,
    h.mem.npin, fun b => h.mem_lh_of_pinned, fun i => h.bio.refcnt_nonneg i⟩
  · exact h.bio.uniq i j (h.dev_of_refcnt hi) (h.dev_of_refcnt hj) hb
  · have hp := h.pinned_of_uninstalled hu
    obtain ⟨x, i, -, hd, hb, hv, -⟩ := h.pinned_buf hp
    refine ⟨i, hd, hb, hv, ?_⟩
    rw [h.bio.ref, if_pos ⟨hd, by rw [hb]; exact hp⟩]
    omega
  · rcases bget_cases he with ⟨-, -, rfl⟩ | ⟨-, hz, -⟩
    · exact setBuf_self _ i _
    · exact absurd ⟨hd, h.pinned_of_uninstalled hu⟩ (h.unused hz).2

/-- Two logged blocks during their commit. -/
theorem cache_coherence_two : ∃ c : Conf (Fin 3) Act Act.Ret (St (Fin 3)),
    uninstalled c.state.hist 101 = true ∧ c.state.committing = true ∧
    ∃ i, (c.state.buf i).dev = rootDev ∧ (c.state.buf i).blockno = 101 ∧
      (c.state.buf i).valid = true ∧ 0 < (c.state.buf i).refcnt := by
  obtain ⟨s₀, c, hB, hr, hp⟩ := exists_reach (by decide :
    (runFrom { disc := true } rootDev 2 zeroDisk (0 : Fin 3) (oneOp 40)).map (fun c =>
      uninstalled c.state.hist 101 && c.state.committing) = some true)
  rw [Bool.and_eq_true] at hp
  obtain ⟨-, -, hi, -⟩ := cache_coherence (by decide) (headOk_of_empty (by decide)) hB hr
  exact ⟨c, hp.1, hp.2, hi 101 hp.1⟩

/-- **Buffers are counted**, whatever the clients do: `refcnt` is the number of uses between `bget` and
`brelse`, and one more while the block is pinned; the LRU list has each buffer once; and `bget` recycles
only a buffer that nobody uses and whose block is not pinned. -/
theorem buffers_counted (hstart : start + logBlocks < 2 ^ 32) (hh : HeadOk start (d start))
    (hB : Booted rootDev start d s₀) (hr : Reach (sys fun _ _ _ => True) (idle s₀) c) :
    (∀ i, (c.state.buf i).refcnt = (c.state.users.map Prod.snd).count i +
      if (c.state.buf i).dev = rootDev ∧ pinned c.state.hist (c.state.buf i).blockno = true
      then 1 else 0) ∧
    c.state.lru.Nodup ∧ (∀ i, i ∈ c.state.lru) ∧
    ∀ b t i s', c.state.bget rootDev b t = .done i s' →
      (c.state.buf i).dev = rootDev ∧ (c.state.buf i).blockno = b ∨
      (∀ u, (u, i) ∉ c.state.users) ∧
        ¬ ((c.state.buf i).dev = rootDev ∧ pinned c.state.hist (c.state.buf i).blockno) := by
  rw [← sys_default] at hr
  obtain ⟨G, st, h⟩ := (reach_good (by decide) hstart hh hB hr).inv
  refine ⟨h.bio.ref, h.bio.nodup, h.bio.mem, fun b t i s' he => ?_⟩
  rcases bget_cases he with ⟨hd, hb, -⟩ | ⟨-, hz, -⟩
  · exact .inl ⟨hd, hb⟩
  · exact .inr (h.bio.unused hz)

theorem buffers_counted_two : ∃ c : Conf (Fin 3) Act Act.Ret (St (Fin 3)),
    c.state.committing = true ∧ c.state.lru.Nodup := by
  obtain ⟨s₀, c, hB, hr, hp⟩ := exists_reach (by decide :
    (runFrom {} rootDev 2 zeroDisk (0 : Fin 3) (oneOp 40)).map (fun c => c.state.committing) = some true)
  rw [sys_default] at hr
  exact ⟨c, hp, (buffers_counted (by decide) (headOk_of_empty (by decide)) hB hr).2.1⟩

/-! ## Log space -/

theorem InvAt.not_committing_of_logWrite {i : BufId} {s' : St T} {u : Unit}
    (h : InvAt m dev start d₀ s' G st) (he : s.logWrite i t = .done u s') : s.committing = false := by
  have hkey : s'.committing = s.committing ∧
      openGroup s'.hist (s.buf i).blockno = some (s.buf i).data := by
    unfold St.logWrite at he
    dsimp only at he
    split_ifs at he <;>
    · cases he
      exact ⟨rfl, update_self ..⟩
  by_contra hc
  have hne : st ≠ .client := h.mem.comm.1 (by rw [hkey.1]; exact eq_true_of_ne_false hc)
  have := (h.grp.shut hne).2 (s.buf i).blockno
  rw [hkey.2] at this
  cases this

/-- **Log space**: if every operation logs at most `maxOpBlocks` distinct blocks and no block that is
already logged is logged again while the log is full, then the log never overflows, its blocks are
distinct, `log_write` is never called during a commit, and the checks of `log_write` and `end_op`
never fail. -/
theorem log_space (hstart : start + logBlocks < 2 ^ 32) (hh : HeadOk start (d start))
    (hB : Booted rootDev start d s₀)
    (hr : Reach (sys (cond { lim := true, full := true })) (idle s₀) c) :
    c.state.lh.length ≤ logBlocks ∧ c.state.lh.Nodup ∧
    (∀ s thr t i k, c = .live s thr → thr t = .act (.logWrite i) k →
      cond { lim := true, full := true } (.logWrite i) t s → s.committing = false) ∧
    ∀ msg s, c = .dead msg s → msg ≠ "too big a transaction" ∧ msg ≠ "log.committing" ∧
      msg ≠ "log_write outside of trans" := by
  have hgood := reach_good (by decide) hstart hh hB hr
  obtain ⟨G, st, h⟩ := hgood.inv
  refine ⟨h.mem.len, h.mem.nodup, ?_, ?_⟩
  · rintro s thr t i k rfl hthr hc
    obtain ⟨G', hI, hok⟩ := hgood
    have hpan : ∀ msg, s.logWrite i t ≠ .panic msg := by
      intro msg he
      have hok' := hok t
      rw [hthr] at hok'
      have hp := (hok' s G' hI rfl hc).1 msg he
      rcases hp with ⟨rfl, hp⟩ | ⟨rfl, -⟩
      · exact hp ⟨rfl, rfl⟩
      · unfold St.logWrite at he
        dsimp only at he
        split_ifs at he <;> exact absurd (Outcome.panic.inj he) (by decide)
    cases he : s.logWrite i t with
    | wait => unfold St.logWrite at he; dsimp only at he; split_ifs at he
    | panic msg => exact absurd he (hpan msg)
    | done u s' =>
      have hr' := hr.tail (.act hthr hc he)
      obtain ⟨G₁, st₁, h₁⟩ := (reach_good (by decide) hstart hh hB hr').inv
      exact h₁.not_committing_of_logWrite he
  · rintro msg s rfl
    rcases hgood.1 with ⟨rfl, hp⟩ | ⟨rfl, -⟩
    · exact absurd ⟨rfl, rfl⟩ hp
    · exact ⟨by decide, by decide, by decide⟩

/-- Three operations fill the log exactly. -/
theorem log_space_full : ∃ c : Conf (Fin 3) Act Act.Ret (St (Fin 3)),
    c.state.lh.length = logBlocks ∧ c.state.lh.Nodup := by
  obtain ⟨s₀, c, hB, hr, hp⟩ := exists_reach (by decide +kernel :
    (runFrom { lim := true, full := true } rootDev 2 zeroDisk (0 : Fin 3) fillLog).map (fun c =>
      c.state.lh.length == logBlocks) = some true)
  exact ⟨c, beq_iff_eq.1 hp, (log_space (by decide) (headOk_of_empty (by decide)) hB hr).2.1⟩

/-- The capacity test of `log_write` comes before absorption: in a full log the first operation logs
one of its own ten blocks again. -/
theorem log_write_again_panics : ∃ s₀ s' : St (Fin 3), Booted rootDev 2 zeroDisk s₀ ∧
    Reach (sys (cond { disc := true, lim := true })) (idle s₀) (.dead "too big a transaction" s') :=
  exists_dead (by decide +kernel :
    (runFrom { disc := true, lim := true } rootDev 2 zeroDisk (0 : Fin 3) (fillLog ++
      [(0, some (.bread 100)), (0, none), (0, none), (0, none), (0, some (.logWrite (Fin.ofNat 30 2))),
        (0, none)])).bind Conf.msg = some "too big a transaction")

/-! ## Buffers -/

theorem InvAt.outstanding_of_committing (h : InvAt m dev start d₀ s G st)
    (hc : s.committing) : s.outstanding = 0 := by
  rw [h.out]
  apply sum_eq_zero
  intro t _
  rw [h.mem.noOp (h.mem.comm.1 hc) t]
  rfl

theorem InvAt.no_op_of_outstanding (h : InvAt m dev start d₀ s G st) (ho : s.outstanding = 0)
    (t : T) : s.op t = none := by
  have hsum := h.out
  rw [ho] at hsum
  have ht := (sum_eq_zero_iff_of_nonneg fun u _ => busy_nonneg (s.op u)).1 hsum.symm t
    (mem_univ t)
  unfold busy at ht
  split_ifs at ht with hs
  · cases ht
  · exact Option.not_isSome_iff_eq_none.1 hs

theorem InvAt.client_iff (h : InvAt m dev start d₀ s G st) :
    s.committing = false ↔ st = .client := by
  rw [← Bool.not_eq_true, h.mem.comm, not_not]

/-- **The log never wedges**: no operation is outstanding during a commit, the log is empty when
nothing is going on, and nobody sleeps in `begin_op` while the log could admit another operation.
While threads sleep and no operation is outstanding, a thread that is awake runs `commit`. -/
theorem log_never_wedges {thr : T → P Unit} (hstart : start + logBlocks < 2 ^ 32)
    (hh : HeadOk start (d start)) (hB : Booted rootDev start d s₀)
    (hr : Reach (sys fun _ _ _ => True) (idle s₀) (.live s thr)) :
    (s.committing = true → s.outstanding = 0) ∧
    (s.outstanding = 0 → s.committing = false → s.lh = []) ∧
    (∀ t, s.asleep t = true → s.committing = false →
      ¬ s.lh.length + (s.outstanding + 1) * maxOpBlocks ≤ logBlocks) ∧
    (s.outstanding = 0 → (∃ t, s.asleep t = true) →
      s.committing = true ∧ ∃ u, s.asleep u = false ∧ thr u ≠ .ret ()) := by
  rw [← sys_default] at hr
  obtain ⟨G, ⟨st, h⟩, hok⟩ := reach_good (by decide) hstart hh hB hr
  have hempty : s.outstanding = 0 → s.committing = false → s.lh = [] := fun ho hc =>
    h.wake.empty (h.client_iff.1 hc) (h.no_op_of_outstanding ho)
  have hsleep : ∀ t, s.asleep t = true → s.committing = false →
      ¬ s.lh.length + (s.outstanding + 1) * maxOpBlocks ≤ logBlocks := by
    intro t ht hc
    rcases h.wake.sleep t ht with hc' | hfull
    · rw [hc] at hc'
      cases hc'
    · exact not_le.2 hfull
  refine ⟨h.outstanding_of_committing, hempty, hsleep, ?_⟩
  rintro ho ⟨t, ht⟩
  have hc : s.committing = true := by
    by_contra hne
    have hc := Bool.eq_false_iff.2 hne
    apply hsleep t ht hc
    rw [hempty ho hc, ho]
    decide
  have hst : st ≠ .client := h.mem.comm.1 hc
  obtain ⟨u, hu⟩ := h.run hst
  rw [← hu] at hst
  refine ⟨hc, u, h.wake.awake u (.inr hst), fun hret => ?_⟩
  have hrest := hok u
  rw [hret] at hrest
  exact hst hrest.2.2.2

/-- Three operations reserve the whole log, and a fourth process sleeps. -/
theorem log_never_wedges_full : ∃ s : St (Fin 4), s.asleep 3 = true ∧ s.committing = false ∧
    s.outstanding = 3 ∧ ¬ s.lh.length + (s.outstanding + 1) * maxOpBlocks ≤ logBlocks := by
  obtain ⟨s₀, c, hB, hr, hp⟩ := exists_reach (by decide :
    (runFrom {} rootDev 2 zeroDisk (0 : Fin 4)
      ((List.finRange 4).flatMap fun t => [(t, some .beginOp), (t, none)])).map (fun c =>
        c.msg.isNone && (c.state.asleep 3 && (!c.state.committing && c.state.outstanding == 3))) =
      some true)
  simp only [Bool.and_eq_true, Bool.not_eq_true', beq_iff_eq] at hp
  obtain ⟨hlive, hasleep, hc, ho⟩ := hp
  cases c with
  | dead msg s => cases hlive
  | live s thr =>
    rw [sys_default] at hr
    exact ⟨s, hasleep, hc, ho,
      (log_never_wedges (by decide) (headOk_of_empty (by decide)) hB hr).2.2.1 3 hasleep hc⟩

end Xv6.Log
