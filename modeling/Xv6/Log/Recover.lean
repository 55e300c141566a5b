import Xv6.Log.Commit

/-!
# Recovery

`fsinit` runs alone. It installs the group that the header on disk describes and clears the header,
so the home blocks become those of `recovered`. At every point on the way the disk has the same
`recovered` home blocks, so a crash during recovery changes nothing.
-/

namespace Xv6.Log

open Function Finset Xv6.Threads

/-- The header names distinct home blocks, no more than the log has. -/
structure HeadOk (start : ℕ) (b : Block) : Prop where
  len : (getHead b).length ≤ logBlocks
  nodup : (getHead b).Nodup
  home : ∀ x ∈ getHead b, ¬ InLog start x ∧ x < 2 ^ 32

/-- The group that the log of a disk holds. -/
def logGroup (start : ℕ) (d : ℕ → Block) : Group := fun b =>
  ((getHead (d start)).idxOf? b).map fun j => d (start + j + 1)

/-- The disk that recovery makes of `d`. -/
def recovered (start : ℕ) (d : ℕ → Block) : ℕ → Block := applyGroup (logGroup start d) d

theorem getHead_nil {b : Block} (h : b.word 0 = 0) : getHead b = [] := by
  unfold getHead; rw [h]; rfl

theorem headOk_of_empty {start : ℕ} {b : Block} (h : b.word 0 = 0) : HeadOk start b := by
  constructor <;> rw [getHead_nil h]
  · exact Nat.zero_le _
  · exact List.nodup_nil
  · exact fun x hx => absurd hx List.not_mem_nil

section Recovered

variable {start : ℕ} {d : ℕ → Block}

theorem recovered_mem {b j : ℕ} (hn : (getHead (d start)).Nodup)
    (hj : (getHead (d start))[j]? = some b) : recovered start d b = d (start + j + 1) := by
  obtain ⟨hlt, rfl⟩ := List.getElem?_eq_some_iff.1 hj
  refine applyGroup_some ?_ d
  unfold logGroup
  rw [List.idxOf?_eq_some_iff.2 ⟨hlt, rfl, fun i hi h => ?_⟩]
  · rfl
  · exact absurd ((List.Nodup.getElem_inj_iff hn).1 h) (by omega)

theorem recovered_not_mem {b : ℕ} (hb : b ∉ getHead (d start)) : recovered start d b = d b := by
  refine applyGroup_none ?_ d
  unfold logGroup
  rw [List.idxOf?_eq_none_iff.2 hb]
  rfl

theorem recovered_empty (h : (d start).word 0 = 0) : recovered start d = d := by
  funext b
  apply recovered_not_mem
  rw [getHead_nil h]
  exact List.not_mem_nil

/-- Two disks with the same log that agree outside it and outside the logged blocks recover to the
same home blocks. -/
theorem recovered_congr {d' : ℕ → Block} (hh : HeadOk start (d start))
    (hlog : ∀ x, InLog start x → d' x = d x)
    (hhome : ∀ b, ¬ InLog start b → b ∉ getHead (d start) → d' b = d b) (b : ℕ)
    (hb : ¬ InLog start b) : recovered start d' b = recovered start d b := by
  have hs : d' start = d start := hlog start ⟨le_refl _, by omega⟩
  by_cases hm : b ∈ getHead (d start)
  · obtain ⟨j, hlt, rfl⟩ := List.getElem_of_mem hm
    have hj : (getHead (d start))[j]? = some (getHead (d start))[j] := List.getElem?_eq_getElem hlt
    have hlen := hh.len
    rw [recovered_mem hh.nodup hj, recovered_mem (by rw [hs]; exact hh.nodup) (by rw [hs]; exact hj)]
    exact hlog _ ⟨by omega, by omega⟩
  · rw [recovered_not_mem hm, recovered_not_mem (by rw [hs]; exact hm)]
    exact hhome b hb hm

end Recovered

/-! ## The buffer cache of a thread that runs alone -/

variable {T : Type} [DecidableEq T]

/-- Thread `t` holds the buffers `hs`, nobody else holds any, and the cache agrees with the disk. -/
structure Held (dev : ℕ) (t : T) (s : St T) (hs : Finset BufId) : Prop where
  mem : ∀ i, i ∈ s.lru
  nodup : s.lru.Nodup
  uniq : ∀ i j, (s.buf i).dev = dev → (s.buf j).dev = dev →
    (s.buf i).blockno = (s.buf j).blockno → i = j
  ref : ∀ i, (s.buf i).refcnt = if i ∈ hs then 1 else 0
  lock : ∀ i, (s.buf i).lock = if i ∈ hs then some t else none
  users : ∀ p, s.users.count p = if p.1 = t ∧ p.2 ∈ hs then 1 else 0
  held : ∀ i ∈ hs, (s.buf i).dev = dev ∧ (s.buf i).valid = true
  fresh : ∀ i, (s.buf i).dev = dev → (s.buf i).valid → (s.buf i).data = s.disk (s.buf i).blockno

/-- What the steps of `fsinit` leave alone. -/
structure Still (s s' : St T) : Prop where
  dev : s'.dev = s.dev
  start : s'.start = s.start
  outstanding : s'.outstanding = s.outstanding
  committing : s'.committing = s.committing
  asleep : s'.asleep = s.asleep
  op : s'.op = s.op
  nextOp : s'.nextOp = s.nextOp

theorem Still.trans {s₁ s₂ s₃ : St T} (h : Still s₁ s₂) (h' : Still s₂ s₃) : Still s₁ s₃ :=
  ⟨h'.dev.trans h.dev, h'.start.trans h.start, h'.outstanding.trans h.outstanding,
    h'.committing.trans h.committing, h'.asleep.trans h.asleep, h'.op.trans h.op,
    h'.nextOp.trans h.nextOp⟩

variable {dev start : ℕ} {t : T} {s : St T} {hs : Finset BufId} {D : (ℕ → Block) → Prop}
  {α : Type} {Q : α → St T → Prop}

/-- `bread` of a block that is not held yet. -/
theorem runs_bread {b : ℕ} {k : BufId → P α} (h : Held dev t s hs) (hD : D s.disk)
    (hcard : hs.card < nbuf) (hb : ∀ j ∈ hs, (s.buf j).blockno ≠ b)
    (hk : ∀ i s', i ∉ hs → Held dev t s' (insert i hs) → Still s s' → s'.disk = s.disk →
      s'.lh = s.lh → (s'.buf i).blockno = b → (∀ j ∈ hs, s'.buf j = s.buf j) →
      Runs exec t (fun s => D s.disk) (k i) s' Q) :
    Runs exec t (fun s => D s.disk) (bread dev b >>= k) s Q := by
  -- some buffer is not referenced, so `bget` returns
  have hget : ∃ i s₁, s.bget dev b t = .done i s₁ := by
    cases he : s.bget dev b t with
    | done i s₁ => exact ⟨i, s₁, rfl⟩
    | wait => unfold St.bget at he; split at he <;> (try split at he) <;> cases he
    | panic msg =>
      obtain ⟨-, -, hfull⟩ := bget_panic he
      have : hs = univ := by
        refine eq_univ_of_forall fun j => ?_
        by_contra hj
        exact hfull j (h.mem j) (by rw [h.ref, if_neg hj])
      rw [this, card_univ, Fintype.card_fin] at hcard
      exact absurd hcard (lt_irrefl _)
  obtain ⟨i, s₁, he⟩ := hget
  -- the buffer is not held, and if it is valid then it has the contents of the disk
  obtain ⟨v, x, hs₁, hnew, huniq, hx⟩ : ∃ v x, s₁ = (s.setBuf i ⟨v, dev, b, none, 1, x⟩).enter t i ∧
      i ∉ hs ∧ (∀ j, (s.buf j).dev = dev → (s.buf j).blockno = b → j = i) ∧
      (v → x = s.disk b) := by
    rcases bget_cases he with ⟨hd, hbn, rfl⟩ | ⟨hno, hr, rfl⟩
    · have hi : i ∉ hs := fun hi => hb i hi hbn
      have hl := h.lock i
      have hr := h.ref i
      rw [if_neg hi] at hl hr
      refine ⟨(s.buf i).valid, (s.buf i).data, ?_, hi,
        fun j hj hbj => h.uniq j i hj hd (hbj.trans hbn.symm), fun hv => ?_⟩
      · dsimp only; rw [hr, hd, hbn, hl]; rfl
      · rw [h.fresh i hd hv, hbn]
    · have hi : i ∉ hs := fun hi => by rw [h.ref, if_pos hi] at hr; cases hr
      have hl := h.lock i
      rw [if_neg hi] at hl
      refine ⟨false, (s.buf i).data, ?_, hi, fun j hj hbj => absurd ⟨hj, hbj⟩ (hno j (h.mem j)), nofun⟩
      dsimp only; rw [hl]
  subst hs₁
  let s₂ := ((s.setBuf i ⟨v, dev, b, none, 1, x⟩).enter t i).setBuf i ⟨v, dev, b, some t, 1, x⟩
  have hacq : exec (.acquiresleep i) t ((s.setBuf i ⟨v, dev, b, none, 1, x⟩).enter t i) =
      .done () s₂ := by
    have hl : (((s.setBuf i ⟨v, dev, b, none, 1, x⟩).enter t i).buf i) = ⟨v, dev, b, none, 1, x⟩ :=
      setBuf_self s i _
    show St.acquiresleep _ i t = _
    unfold St.acquiresleep
    rw [hl]
    rfl
  -- after `bfill` the buffer is valid and has the contents of the disk
  have hbuf : (s₂.bfill i).buf i = ⟨true, dev, b, some t, 1, s.disk b⟩ := by
    cases v with
    | true => simp [St.bfill, St.emit, s₂, hx rfl]
    | false => simp [St.bfill, St.emit, s₂, St.enter, St.setBuf]
  have hother : ∀ j ≠ i, (s₂.bfill i).buf j = s.buf j := by
    intro j hj
    cases v <;> simp [St.bfill, St.emit, s₂, St.enter, St.setBuf, hj]
  have hrest : (s₂.bfill i).disk = s.disk ∧ (s₂.bfill i).lh = s.lh ∧ (s₂.bfill i).lru = s.lru ∧
      (s₂.bfill i).users = (t, i) :: s.users ∧ Still s (s₂.bfill i) := by
    cases v <;> simp only [St.bfill, s₂, setBuf_self] <;> exact ⟨rfl, rfl, rfl, rfl, by constructor <;> rfl⟩
  obtain ⟨hdisk, hlh, hlru, husers, hstill⟩ := hrest
  refine ⟨hD, i, _, he, hD, (), s₂, hacq, hD, (), s₂.bfill i, rfl, ?_⟩
  refine hk i _ hnew ?_ hstill hdisk hlh (by rw [hbuf]) fun j hj => hother j fun e => hnew (e ▸ hj)
  refine ⟨by rw [hlru]; exact h.mem, by rw [hlru]; exact h.nodup, fun j j' hj hj' hbb => ?_,
    fun j => ?_, fun j => ?_, fun p => ?_, fun j hj => ?_, fun j hj hv => ?_⟩
  · by_cases e : j = i
    · by_cases e' : j' = i
      · rw [e, e']
      · subst e
        rw [hbuf, hother j' e'] at hbb
        rw [hother j' e'] at hj'
        exact (huniq j' hj' hbb.symm).symm
    · by_cases e' : j' = i
      · subst e'
        rw [hbuf, hother j e] at hbb
        rw [hother j e] at hj
        exact huniq j hj hbb
      · rw [hother j e, hother j' e'] at hbb
        rw [hother j e] at hj
        rw [hother j' e'] at hj'
        exact h.uniq j j' hj hj' hbb
  · by_cases e : j = i
    · rw [e, hbuf, if_pos (mem_insert_self i hs)]
    · rw [hother j e, h.ref]
      simp [e]
  · by_cases e : j = i
    · rw [e, hbuf, if_pos (mem_insert_self i hs)]
    · rw [hother j e, h.lock]
      simp [e]
  · rw [husers, List.count_cons, h.users]
    obtain ⟨u, j⟩ := p
    by_cases hu : u = t
    · by_cases e : j = i
      · subst hu e; simp [hnew]
      · have : (t, i) ≠ (u, j) := fun h => e (Prod.mk.inj h).2.symm
        simp [hu, e, Ne.symm e]
    · have : (t, i) ≠ (u, j) := fun h => hu (Prod.mk.inj h).1.symm
      simp [hu, this]
  · rcases mem_insert.1 hj with rfl | hj
    · rw [hbuf]; exact ⟨rfl, rfl⟩
    · rw [hother j fun e => hnew (e ▸ hj)]; exact h.held j hj
  · by_cases e : j = i
    · rw [e, hbuf, hdisk]
    · rw [hother j e] at hj hv ⊢
      rw [hdisk]
      exact h.fresh j hj hv

theorem runs_brelse {i : BufId} {k : Unit → P α} (h : Held dev t s hs) (hD : D s.disk) (hi : i ∈ hs)
    (hk : ∀ s', Held dev t s' (hs.erase i) → Still s s' → s'.disk = s.disk → s'.lh = s.lh →
      (∀ j ∈ hs.erase i, s'.buf j = s.buf j) → Runs exec t (fun s => D s.disk) (k ()) s' Q) :
    Runs exec t (fun s => D s.disk) (brelse i >>= k) s Q := by
  have hl : (s.buf i).lock = some t := by rw [h.lock, if_pos hi]
  have hr : (s.buf i).refcnt = 1 := by rw [h.ref, if_pos hi]
  let s₁ := s.setBuf i { s.buf i with lock := none }
  have hbuf : (s₁.bput i t).buf i = { s.buf i with lock := none, refcnt := 0 } := by
    simp [St.bput, s₁, St.leave, hr]
  have hother : ∀ j ≠ i, (s₁.bput i t).buf j = s.buf j := by
    intro j hj
    simp [St.bput, s₁, St.leave, hr, St.setBuf, hj]
  have hrest : (s₁.bput i t).disk = s.disk ∧ (s₁.bput i t).lh = s.lh ∧
      (s₁.bput i t).lru = i :: s.lru.erase i ∧ (s₁.bput i t).users = s.users.erase (t, i) ∧
      Still s (s₁.bput i t) := by
    simp only [St.bput, s₁, setBuf_self, hr, sub_self, if_pos]
    exact ⟨rfl, rfl, rfl, rfl, by constructor <;> rfl⟩
  obtain ⟨hdisk, hlh, hlru, husers, hstill⟩ := hrest
  refine ⟨hD, (), s₁, if_pos hl, hD, (), s₁.bput i t, rfl, ?_⟩
  refine hk _ ?_ hstill hdisk hlh fun j hj => hother j (ne_of_mem_erase hj)
  have hkeep : ∀ j, ((s₁.bput i t).buf j).dev = (s.buf j).dev ∧
      ((s₁.bput i t).buf j).blockno = (s.buf j).blockno ∧
      ((s₁.bput i t).buf j).valid = (s.buf j).valid ∧
      ((s₁.bput i t).buf j).data = (s.buf j).data := by
    intro j
    by_cases e : j = i
    · rw [e, hbuf]; exact ⟨rfl, rfl, rfl, rfl⟩
    · rw [hother j e]; exact ⟨rfl, rfl, rfl, rfl⟩
  refine ⟨fun j => ?_, ?_, fun j j' => ?_, fun j => ?_, fun j => ?_, fun p => ?_, fun j hj => ?_,
    fun j => ?_⟩
  · rw [hlru]
    by_cases e : j = i
    · rw [e]; exact List.mem_cons_self
    · exact List.mem_cons_of_mem i ((List.mem_erase_of_ne e).2 (h.mem j))
  · rw [hlru]
    exact List.nodup_cons.2 ⟨h.nodup.not_mem_erase, h.nodup.erase i⟩
  · rw [(hkeep j).1, (hkeep j').1, (hkeep j).2.1, (hkeep j').2.1]
    exact h.uniq j j'
  · by_cases e : j = i
    · rw [e, hbuf, if_neg (notMem_erase i hs)]
    · rw [hother j e, h.ref]
      simp [e]
  · by_cases e : j = i
    · rw [e, hbuf, if_neg (notMem_erase i hs)]
    · rw [hother j e, h.lock]
      simp [e]
  · obtain ⟨u, j⟩ := p
    rw [husers, List.count_erase, h.users]
    by_cases hu : u = t
    · by_cases e : j = i
      · subst hu e; simp [hi]
      · have : (t, i) ≠ (u, j) := fun h => e (Prod.mk.inj h).2.symm
        simp [hu, e, Ne.symm e]
    · have : (t, i) ≠ (u, j) := fun h => hu (Prod.mk.inj h).1.symm
      simp [hu, this]
  · rw [(hkeep j).1, (hkeep j).2.2.1]
    exact h.held j (mem_of_mem_erase hj)
  · rw [(hkeep j).1, (hkeep j).2.1, (hkeep j).2.2.1, (hkeep j).2.2.2, hdisk]
    exact h.fresh j

theorem runs_put {a : Act} {i : BufId} {x : Block} {k : a.Ret → P α} {k' : Unit → P α} {v : a.Ret}
    (h : Held dev t s hs) (hD : D s.disk) (hi : i ∈ hs)
    (ha : exec a t s = .done v (s.setBuf i { s.buf i with data := x }))
    (hkv : k v = .act (.bwrite i) k')
    (hk : ∀ s', Held dev t s' hs → Still s s' →
      s'.disk = update s.disk (s.buf i).blockno x → s'.lh = s.lh →
      (∀ j, (s'.buf j).blockno = (s.buf j).blockno) →
      Runs exec t (fun s => D s.disk) (k' ()) s' Q) :
    Runs exec t (fun s => D s.disk) (.act a k) s Q := by
  let s₁ := s.setBuf i { s.buf i with data := x }
  have hl : (s₁.buf i).lock = some t := by
    simp only [s₁, setBuf_self]
    rw [h.lock, if_pos hi]
  have hfields : ∀ j, ((s₁.buf j).dev = (s.buf j).dev ∧ (s₁.buf j).blockno = (s.buf j).blockno) ∧
      (s₁.buf j).valid = (s.buf j).valid ∧ (s₁.buf j).refcnt = (s.buf j).refcnt ∧
      (s₁.buf j).lock = (s.buf j).lock := by
    intro j
    by_cases e : j = i
    · subst e; simp [s₁]
    · simp [s₁, setBuf_ne s _ e]
  refine ⟨hD, v, s₁, ha, ?_⟩
  rw [hkv]
  refine ⟨hD, (), _, if_pos hl, hk _ ?_ (by constructor <;> rfl) ?_ rfl fun j => (hfields j).1.2⟩
  · refine ⟨h.mem, h.nodup, fun j j' => ?_, fun j => ?_, fun j => ?_, h.users, fun j hj => ?_,
      fun j hj hv => ?_⟩
    · show (s₁.buf j).dev = dev → (s₁.buf j').dev = dev → (s₁.buf j).blockno = (s₁.buf j').blockno → _
      rw [(hfields j).1.1, (hfields j').1.1, (hfields j).1.2, (hfields j').1.2]
      exact h.uniq j j'
    · show (s₁.buf j).refcnt = _
      rw [(hfields j).2.2.1]
      exact h.ref j
    · show (s₁.buf j).lock = _
      rw [(hfields j).2.2.2]
      exact h.lock j
    · show (s₁.buf j).dev = dev ∧ (s₁.buf j).valid = true
      rw [(hfields j).1.1, (hfields j).2.1]
      exact h.held j hj
    · show (s₁.buf j).data = update s.disk (s₁.buf i).blockno (s₁.buf i).data (s₁.buf j).blockno
      by_cases e : j = i
      · rw [e, update_self]
      · have hj' : (s.buf j).dev = dev := (hfields j).1.1.symm.trans hj
        have hb : (s₁.buf j).blockno ≠ (s₁.buf i).blockno := by
          rw [(hfields j).1.2, (hfields i).1.2]
          exact fun hb => e (h.uniq j i hj' (h.held i hi).1 hb)
        rw [update_of_ne hb, (hfields j).1.2,
          show s₁.buf j = s.buf j from setBuf_ne s _ e]
        exact h.fresh j hj' ((hfields j).2.1.symm.trans hv)
  · show update s.disk (s₁.buf i).blockno (s₁.buf i).data = _
    rw [(hfields i).1.2, show s₁.buf i = { s.buf i with data := x } from setBuf_self s i _]

/-! ## The functions of recovery -/

/-- `k` blocks of the log of `d` are installed. -/
structure Installed (start : ℕ) (d : ℕ → Block) (k : ℕ) (d' : ℕ → Block) : Prop where
  log : ∀ x, InLog start x → d' x = d x
  home : ∀ b, ¬ InLog start b →
    d' b = if b ∈ (getHead (d start)).take k then recovered start d b else d b

/-- What stays true of the disk during recovery. -/
def Recovering (start : ℕ) (d d' : ℕ → Block) : Prop :=
  HeadOk start (d' start) ∧ ∀ b, ¬ InLog start b → recovered start d' b = recovered start d b

variable {d : ℕ → Block}

theorem Installed.recovering {k : ℕ} {d' : ℕ → Block} (hh : HeadOk start (d start))
    (h : Installed start d k d') : Recovering start d d' := by
  have hs : d' start = d start := h.log start ⟨le_refl _, by omega⟩
  refine ⟨by rw [hs]; exact hh, fun b hb => recovered_congr hh h.log (fun c hc hm => ?_) b hb⟩
  rw [h.home c hc, if_neg fun e => hm (List.mem_of_mem_take e)]

theorem installed_zero : Installed start d 0 d :=
  ⟨fun _ _ => rfl, fun b _ => by rw [List.take_zero, if_neg List.not_mem_nil]⟩

/-- One round installs one more block. -/
theorem Installed.succ {k b : ℕ} {d' : ℕ → Block} (hh : HeadOk start (d start))
    (h : Installed start d k d') (hb : (getHead (d start))[k]? = some b) :
    Installed start d (k + 1) (update d' b (d' (start + k + 1))) := by
  have hmem : b ∈ getHead (d start) := List.mem_of_getElem? hb
  have hhome := (hh.home b hmem).1
  have hlt : k < (getHead (d start)).length := (List.getElem?_eq_some_iff.1 hb).1
  have hlen := hh.len
  have hx : d' (start + k + 1) = recovered start d b := by
    rw [h.log _ ⟨by omega, by omega⟩, recovered_mem hh.nodup hb]
  refine ⟨fun c hc => ?_, fun c hc => ?_⟩
  · rw [update_of_ne (by rintro rfl; exact hhome hc)]
    exact h.log c hc
  · have htake : c ∈ (getHead (d start)).take (k + 1) ↔ c ∈ (getHead (d start)).take k ∨ c = b := by
      rw [List.take_add_one, hb, List.mem_append]
      simp
    by_cases hcb : c = b
    · subst hcb
      rw [update_self, if_pos (htake.2 (Or.inr rfl)), hx]
    · rw [update_of_ne hcb, h.home c hc]
      by_cases hm : c ∈ (getHead (d start)).take k
      · rw [if_pos hm, if_pos (htake.2 (Or.inl hm))]
      · rw [if_neg hm, if_neg fun e => (htake.1 e).elim hm hcb]

theorem Installed.all {d' : ℕ → Block} (h : Installed start d (getHead (d start)).length d') {b : ℕ}
    (hb : ¬ InLog start b) : d' b = recovered start d b := by
  rw [h.home b hb, List.take_length]
  by_cases hm : b ∈ getHead (d start)
  · rw [if_pos hm]
  · rw [if_neg hm, recovered_not_mem hm]

/-- The state between the functions of recovery. -/
structure At (dev start : ℕ) (t : T) (s₀ : St T) (s : St T) (lh : List ℕ) : Prop where
  held : Held dev t s ∅
  still : Still s₀ s
  lh : s.lh = lh

theorem two_lt_nbuf (i : BufId) : ({i} : Finset BufId).card < nbuf := by
  rw [card_singleton]; decide

theorem zero_lt_nbuf : (∅ : Finset BufId).card < nbuf := by
  rw [card_empty]; decide

variable {s₀ : St T} {l : List ℕ}

theorem runs_readsb {k : Unit → P α} (h : At dev start t s₀ s l) (hD : D s.disk)
    (hk : ∀ s', At dev start t s₀ s' l → s'.disk = s.disk →
      Runs exec t (fun s => D s.disk) (k ()) s' Q) :
    Runs exec t (fun s => D s.disk) (readsb dev >>= k) s Q := by
  refine runs_bread h.held hD zero_lt_nbuf (by simp) fun i s₁ _ h₁ hst₁ hd₁ hl₁ _ _ => ?_
  refine runs_brelse h₁ (by rw [hd₁]; exact hD) (mem_insert_self _ _) fun s₂ h₂ hst₂ hd₂ hl₂ _ => ?_
  rw [erase_insert (notMem_empty i)] at h₂
  exact hk s₂ ⟨h₂, (h.still.trans hst₁).trans hst₂, by rw [hl₂, hl₁, h.lh]⟩ (by rw [hd₂, hd₁])

theorem runs_readHead {k : Unit → P α} (h : At dev start t s₀ s l) (hD : D s.disk)
    (hk : ∀ s', At dev start t s₀ s' (getHead (s.disk start)) → s'.disk = s.disk →
      Runs exec t (fun s => D s.disk) (k ()) s' Q) :
    Runs exec t (fun s => D s.disk) (readHead dev start >>= k) s Q := by
  refine runs_bread h.held hD zero_lt_nbuf (by simp) fun i s₁ _ h₁ hst₁ hd₁ hl₁ hb₁ _ => ?_
  have hi := mem_insert_self i ∅
  have hdata : (s₁.buf i).data = s.disk start := by
    rw [h₁.fresh i (h₁.held i hi).1 (h₁.held i hi).2, hb₁, hd₁]
  refine ⟨by show D s₁.disk; rw [hd₁]; exact hD, (), _, rfl, ?_⟩
  have h₁' : Held dev t { s₁ with lh := getHead (s₁.buf i).data } (insert i ∅) :=
    ⟨h₁.mem, h₁.nodup, h₁.uniq, h₁.ref, h₁.lock, h₁.users, h₁.held, h₁.fresh⟩
  refine runs_brelse h₁' (by show D s₁.disk; rw [hd₁]; exact hD) hi fun s₂ h₂ hst₂ hd₂ hl₂ _ => ?_
  rw [erase_insert (notMem_empty i)] at h₂
  have hst : Still s₁ { s₁ with lh := getHead (s₁.buf i).data } := by constructor <;> rfl
  refine hk s₂ ⟨h₂, ((h.still.trans hst₁).trans hst).trans hst₂, ?_⟩ ?_
  · rw [hl₂, ← hdata]
  · rw [hd₂]; exact hd₁

theorem runs_writeHead {k : Unit → P α} (h : At dev start t s₀ s l) (hD : D s.disk)
    (hD' : ∀ x, D (update s.disk start (setHead x l)))
    (hk : ∀ s' x, At dev start t s₀ s' l → s'.disk = update s.disk start (setHead x l) →
      Runs exec t (fun s => D s.disk) (k ()) s' Q) :
    Runs exec t (fun s => D s.disk) (writeHead dev start >>= k) s Q := by
  refine runs_bread h.held hD zero_lt_nbuf (by simp) fun i s₁ _ h₁ hst₁ hd₁ hl₁ hb₁ _ => ?_
  have hi := mem_insert_self i ∅
  refine runs_put h₁ (by rw [hd₁]; exact hD) hi rfl rfl fun s₂ h₂ hst₂ hd₂ hl₂ _ => ?_
  rw [hb₁, hd₁, hl₁, h.lh] at hd₂
  refine runs_brelse h₂ (by rw [hd₂]; exact hD' _) hi fun s₃ h₃ hst₃ hd₃ hl₃ _ => ?_
  rw [erase_insert (notMem_empty i)] at h₃
  exact hk s₃ _ ⟨h₃, ((h.still.trans hst₁).trans hst₂).trans hst₃, by rw [hl₃, hl₂, hl₁, h.lh]⟩
    (by rw [hd₃, hd₂])

/-- One round of `install_trans` during recovery. -/
theorem runs_installOne {k : ℕ} (hh : HeadOk start (d start)) (hk : k < (getHead (d start)).length)
    (h : At dev start t s₀ s (getHead (d start))) (hI : Installed start d k s.disk) :
    Runs exec t (fun s => Recovering start d s.disk) (installOne dev start true k) s
      fun _ s' => At dev start t s₀ s' (getHead (d start)) ∧ Installed start d (k + 1) s'.disk := by
  have hb : (getHead (d start))[k]? = some (getHead (d start))[k] := List.getElem?_eq_getElem hk
  have hmem : (getHead (d start))[k] ∈ getHead (d start) := List.getElem_mem hk
  have hlen := hh.len
  have hlog : InLog start (start + k + 1) := ⟨by omega, by omega⟩
  have hD : Recovering start d s.disk := hI.recovering hh
  refine runs_bread h.held hD zero_lt_nbuf (by simp) fun src s₁ _ h₁ hst₁ hd₁ hl₁ hb₁ _ => ?_
  have hD₁ : Recovering start d s₁.disk := by rw [hd₁]; exact hD
  refine ⟨hD₁, s₁.lh.getD k 0, s₁, rfl, ?_⟩
  have hget : s₁.lh.getD k 0 = (getHead (d start))[k] := by
    rw [hl₁, h.lh, List.getD_eq_getElem?_getD, hb]; rfl
  rw [hget]
  refine runs_bread h₁ hD₁ (two_lt_nbuf src) (fun j hj => ?_)
    fun dst s₂ hdst h₂ hst₂ hd₂ hl₂ hb₂ hsame => ?_
  · rw [mem_singleton.1 hj, hb₁]
    exact fun e => (hh.home _ hmem).1 (e ▸ hlog)
  have hsrc : src ∈ insert dst (insert src (∅ : Finset BufId)) :=
    mem_insert_of_mem (mem_insert_self _ _)
  have hdst' : dst ∈ insert dst (insert src (∅ : Finset BufId)) := mem_insert_self _ _
  have hdata : (s₂.buf src).data = s.disk (start + k + 1) := by
    rw [h₂.fresh src (h₂.held src hsrc).1 (h₂.held src hsrc).2,
      hsame src (mem_insert_self _ _), hb₁, hd₂, hd₁]
  refine runs_put h₂ (by rw [hd₂]; exact hD₁) hdst' rfl rfl fun s₃ h₃ hst₃ hd₃ hl₃ _ => ?_
  rw [hb₂, hd₂, hd₁, hdata] at hd₃
  have hI' : Installed start d (k + 1) s₃.disk := by rw [hd₃]; exact hI.succ hh hb
  have hD₃ := hI'.recovering hh
  refine runs_brelse h₃ hD₃ hsrc fun s₄ h₄ hst₄ hd₄ hl₄ _ => ?_
  have hdst₄ : dst ∈ (insert dst (insert src (∅ : Finset BufId))).erase src :=
    mem_erase.2 ⟨fun e => hdst (e ▸ mem_insert_self _ _), hdst'⟩
  refine runs_brelse (k := Prog.ret) h₄ (by rw [hd₄]; exact hD₃) hdst₄ fun s₅ h₅ hst₅ hd₅ hl₅ _ => ?_
  have hempty : ((insert dst (insert src (∅ : Finset BufId))).erase src).erase dst = ∅ := by
    ext x; simp; tauto
  rw [hempty] at h₅
  have hd : s₅.disk = s₃.disk := hd₅.trans hd₄
  refine ⟨by show Recovering start d s₅.disk; rw [hd]; exact hD₃, ⟨h₅, ?_, ?_⟩,
    by rw [hd]; exact hI'⟩
  · exact ((((h.still.trans hst₁).trans hst₂).trans hst₃).trans hst₄).trans hst₅
  · rw [hl₅, hl₄, hl₃, hl₂, hl₁, h.lh]

theorem held_binit (hdev : dev ≠ 0) : Held dev t (binit dev start d) ∅ := by
  refine ⟨fun i => ?_, ?_, fun i j hi => absurd hi.symm hdev, fun i => rfl, fun i => rfl,
    fun p => ?_, fun i hi => absurd hi (notMem_empty i), fun i hi => absurd hi.symm hdev⟩
  · exact List.mem_reverse.2 (List.mem_finRange i)
  · exact List.nodup_reverse.2 (List.nodup_finRange nbuf)
  · rw [if_neg fun h => notMem_empty _ h.2]
    rfl

/-- `fsinit` returns with an empty log and the recovered home blocks; every disk on the way recovers
to the same home blocks. -/
theorem runs_fsinit (hdev : dev ≠ 0) (hh : HeadOk start (d start)) :
    Runs exec t (fun s => Recovering start d s.disk) (fsinit dev start) (binit dev start d)
      fun _ s' => At dev start t (binit dev start d) s' [] ∧ (s'.disk start).word 0 = 0 ∧
        ∀ b, ¬ InLog start b → s'.disk b = recovered start d b := by
  have hI₀ : Installed start d 0 d := installed_zero
  have hD₀ : Recovering start d d := hI₀.recovering hh
  have hat : At dev start t (binit dev start d) (binit dev start d) [] :=
    ⟨held_binit hdev, by constructor <;> rfl, rfl⟩
  refine runs_readsb hat hD₀ fun s₁ h₁ hd₁ => ?_
  have hd₁ : s₁.disk = d := hd₁
  refine runs_readHead h₁ (by rw [hd₁]; exact hD₀) fun s₂ h₂ hd₂ => ?_
  rw [hd₁] at h₂ hd₂
  -- `install_trans` installs the blocks of the header one by one
  have hJ : At dev start t (binit dev start d) s₂ (getHead (d start)) ∧
      Installed start d 0 s₂.disk := ⟨h₂, by rw [hd₂]; exact hI₀⟩
  refine ⟨hJ.2.recovering hh, s₂.lh.length, s₂, rfl, ?_⟩
  rw [h₂.lh]
  refine Runs.bind (Runs.mono (Runs.loop
    (fun k s' => At dev start t (binit dev start d) s' (getHead (d start)) ∧
      Installed start d k s'.disk) (fun k s' h => h.2.recovering hh)
    (fun k hk s' h => runs_installOne hh hk h.1 h.2) hJ) fun _ s₃ h₃ => ?_)
  obtain ⟨h₃, hI₃⟩ := h₃
  have hD₃ : Recovering start d s₃.disk := hI₃.recovering hh
  -- then it clears the header
  refine ⟨hD₃, (), _, rfl, ?_⟩
  have h₄ : At dev start t (binit dev start d) { s₃ with lh := [] } [] := by
    refine ⟨⟨h₃.held.mem, h₃.held.nodup, h₃.held.uniq, h₃.held.ref, h₃.held.lock, h₃.held.users,
      h₃.held.held, h₃.held.fresh⟩, h₃.still.trans (by constructor <;> rfl), rfl⟩
  have hclear : ∀ x b, ¬ InLog start b →
      update s₃.disk start (setHead x []) b = recovered start d b := by
    intro x b hb
    rw [update_of_ne (by rintro rfl; exact hb ⟨le_refl _, by omega⟩)]
    exact hI₃.all hb
  have hzero : ∀ x, (update s₃.disk start (setHead x []) start).word 0 = 0 := by
    intro x
    rw [update_self]
    exact word_setHead_nil x
  have hD₄ : ∀ x, Recovering start d (update s₃.disk start (setHead x [])) := by
    intro x
    refine ⟨headOk_of_empty (hzero x), fun b hb => ?_⟩
    rw [recovered_empty (hzero x)]
    exact hclear x b hb
  refine runs_writeHead (k := Prog.ret) h₄ hD₃ hD₄ fun s₅ x h₅ hd₅ => ?_
  have hd₅ : s₅.disk = update s₃.disk start (setHead x []) := hd₅
  refine ⟨by show Recovering start d s₅.disk; rw [hd₅]; exact hD₄ x, h₅, ?_, fun b hb => ?_⟩
  · rw [hd₅]; exact hzero x
  · rw [hd₅]; exact hclear x b hb

/-- Crashes during recovery do not change what recovery makes of the disk. -/
theorem Crashes.recovering {d d' : ℕ → Block} (hdev : dev ≠ 0) (h : Crashes dev start t d d')
    (hh : HeadOk start (d start)) : Recovering start d d' := by
  induction h with
  | refl d => exact installed_zero.recovering hh
  | crash hs _ ih =>
    obtain ⟨h₁, h₂⟩ := (runs_fsinit hdev hh).trail _ hs
    obtain ⟨h₃, h₄⟩ := ih h₁
    exact ⟨h₃, fun b hb => (h₄ b hb).trans (h₂ b hb)⟩

end Xv6.Log
