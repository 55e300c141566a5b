import Xv6.Virtio.Inv

/-!
# Every step keeps the invariant of the virtio driver
-/

namespace Xv6.Virtio

open Function Finset Xv6.Threads

variable {T B : Type} {s s' : St T B} {t : T} {r : Req T B} {h : ℕ}

/-! ## Descriptors in use -/

theorem part_some (hl : s.lock = some t) : s.part = ((s.pc t).descs : Multiset ℕ) := by
  unfold St.part
  rw [hl]
  rfl

theorem part_none (hl : s.lock = none) : s.part = 0 := by
  unfold St.part
  rw [hl]
  rfl

/-- What a step that moves a request on keeps of it. -/
def Req.shape (r : Req T B) : B × ℕ × ℕ := (r.b, r.c1, r.c2)

theorem chains_congr (hreq : ∀ i, (s'.req i).map Req.shape = (s.req i).map Req.shape) :
    s'.chains = s.chains := by
  unfold St.chains
  apply sum_congr rfl
  intro i _
  have hi := hreq i
  cases h' : s'.req i <;> cases h0 : s.req i <;> simp_all [Req.shape, Req.descs]

theorem chains_update (hh : h < num) {x : Option (Req T B)}
    (hreq : s'.req = update s.req h x) :
    s'.chains + (s.req h).elim 0 (Req.descs h) = s.chains + x.elim 0 (Req.descs h) := by
  have hsum := sum_update_add (mem_range.2 hh) (fun k => (s.req k).elim 0 (Req.descs k))
    (x.elim 0 (Req.descs h))
  unfold St.chains
  rw [hreq, ← hsum]
  congr 1
  apply sum_congr rfl
  intro k _
  by_cases hk : k = h
  · subst hk
    rw [update_self, update_self]
  · rw [update_of_ne hk, update_of_ne hk]

namespace Descs

theorem head_lt (hd : Descs s) (hr : s.req h = some r) : h < num := by
  by_contra hge
  rw [hd.heads h (by omega)] at hr
  cases hr

theorem mem_chains (hd : Descs s) (hr : s.req h = some r) {i : ℕ} (hi : i ∈ Req.descs h r) :
    i ∈ s.chains := by
  unfold St.chains
  rw [Multiset.mem_sum]
  refine ⟨h, mem_range.2 (hd.head_lt hr), ?_⟩
  rw [hr]
  exact hi

/-- A descriptor in the hands of the lock holder is in no chain. -/
theorem notMem_chains (hd : Descs s) {i : ℕ} (hi : i ∈ s.part) : i ∉ s.chains := fun hc =>
  Multiset.disjoint_left.1 (Multiset.disjoint_of_nodup_add hd.nodup) hc hi

theorem req_none (hd : Descs s) (hh : h ∈ s.part) : s.req h = none := by
  by_contra hne
  obtain ⟨r, hr⟩ := Option.ne_none_iff_exists'.1 hne
  exact hd.notMem_chains hh (hd.mem_chains hr (by simp [Req.descs]))

theorem chain_congr (hd : Descs s) (hr : s.req h = some r)
    (hdesc : ∀ i ∈ s.chains, s'.desc i = s.desc i) : Chain s' h r := by
  have hc := hd.chain h r hr
  have hmem : ∀ i ∈ [h, r.c1, r.c2], s'.desc i = s.desc i := fun i hi =>
    hdesc i (hd.mem_chains hr (Multiset.mem_coe.2 hi))
  refine ⟨?_, ?_, ?_, hc.linked.congr hmem⟩
  · rw [hmem h (by simp)]; exact hc.op
  · rw [hmem r.c1 (by simp)]; exact hc.data
  · rw [hmem r.c2 (by simp)]; exact hc.status

theorem congr (hd : Descs s) (hdesc : s'.desc = s.desc) (hfree : s'.free = s.free)
    (hreq : ∀ i, (s'.req i).map Req.shape = (s.req i).map Req.shape) (hpart : s'.part = s.part)
    (hrest : ∀ t b i rest, s'.pc t = .chain b i rest → Linked s.desc (i :: rest)) : Descs s' := by
  have hbusy : s'.busy = s.busy := by
    unfold St.busy
    rw [chains_congr hreq, hpart]
  constructor
  · intro k hk
    have := hreq k
    rw [hd.heads k hk] at this
    simpa using this
  · rw [hbusy]; exact hd.nodup
  · rw [hbusy]; exact hd.lt
  · rw [hbusy, hfree]; exact hd.free
  · intro k r' hr'
    have hk := hreq k
    rw [hr', Option.map_some] at hk
    obtain ⟨r, hr, hs⟩ := Option.map_eq_some_iff.1 hk.symm
    have hc : Chain s' k r := hd.chain_congr hr fun i _ => by rw [hdesc]
    obtain ⟨hb, h1, h2⟩ : r.b = r'.b ∧ r.c1 = r'.c1 ∧ r.c2 = r'.c2 := by
      simpa [Req.shape] using hs
    refine ⟨hc.op, ?_, ?_, ?_⟩
    · rw [← h1, ← hb]; exact hc.data
    · rw [← h2]; exact hc.status
    · rw [← h1, ← h2]; exact hc.linked
  · rw [hdesc]; exact hrest

end Descs

/-! ## The first state -/

theorem inv_init (blockno : B → ℕ) : Inv (init (T := T) blockno) := by
  have hbusy : (init (T := T) blockno).busy = 0 := by
    unfold St.busy St.chains
    rw [part_none rfl, add_zero]
    exact sum_eq_zero fun h _ => rfl
  have hstage : ∀ h, (init (T := T) blockno).stage h = none := fun h => rfl
  constructor
  · constructor
    · intro h _; rfl
    · rw [hbusy]; exact Multiset.nodup_zero
    · rw [hbusy]; nofun
    · intro i
      rw [hbusy]
      simp [init]
    · nofun
    · nofun
  · constructor
    · unfold St.availItems
      rw [show (init (T := T) blockno).seenAvail = (init (T := T) blockno).availIdx from rfl,
        Ring.items_self]
      exact listed_nil fun i => by simp [hstage]
    · exact listed_nil fun i => by simp [hstage, inWork]
    · exact listed_nil fun i => by simp [hstage]
    · exact listed_nil fun i => by simp [hstage]
    · unfold St.usedItems
      rw [show (init (T := T) blockno).seenUsed = (init (T := T) blockno).usedIdx from rfl,
        Ring.items_self]
      exact listed_nil fun i => by simp [hstage]
    · nofun
  · exact ⟨nofun, nofun, nofun⟩
  · refine ⟨fun t => ?_, nofun, nofun, nofun, nofun⟩
    exact iff_of_false nofun nofun

/-! ## Steps that only move a thread -/

theorem Pcs.eq_of_inside (hp : Pcs s) {u : T} (hl : s.lock = some t)
    (hu : (s.pc u).inside) : u = t :=
  Option.some.inj ((hp.held u).1 hu ▸ hl)

section Moves
variable [DecidableEq T] {p : Pc B}

theorem Pcs.inside_keep (hp : Pcs s) (hin : p.inside = (s.pc t).inside) (u : T) :
    (update s.pc t p u).inside ↔ s.lock = some u := by
  by_cases hu : u = t
  · subst hu
    rw [update_self, hin, hp.held]
  · rw [update_of_ne hu, hp.held]

theorem Pcs.inside_acquire (hp : Pcs s) (hl : s.lock = none) (hin : p.inside) (u : T) :
    (update s.pc t p u).inside ↔ some t = some u := by
  by_cases hu : u = t
  · subst hu
    rw [update_self, hin]
    simp
  · rw [update_of_ne hu, hp.held, hl]
    simp [Ne.symm hu]

theorem Pcs.inside_release (hp : Pcs s) (hl : s.lock = some t) (hin : p.inside = false) (u : T) :
    (update s.pc t p u).inside ↔ none = some u := by
  by_cases hu : u = t
  · subst hu
    rw [update_self, hin]
    simp
  · rw [update_of_ne hu, hp.held, hl]
    simp [Ne.symm hu]

/-- Thread `t` goes to `p`, and no request changes. -/
theorem Pcs.move (hp : Pcs s) (hpc : s'.pc = update s.pc t p) (hreq : s'.req = s.req)
    (howner : s'.owner = s.owner) (hring : s'.availRing = s.availRing)
    (hidx : s'.availIdx = s.availIdx)
    (hin : ∀ u, (update s.pc t p u).inside ↔ s'.lock = some u)
    (hbuf : ∀ b, p.buf = some b → s.owner b = some t) (hhead : p.head = (s.pc t).head)
    (hsame : p.head ≠ none → p.buf = (s.pc t).buf)
    (hallow : ∀ st, (s.pc t).allows st → p.allows st) (hpub : ∀ b h, p ≠ .publish b h) : Pcs s' := by
  constructor
  · rw [hpc]
    exact hin
  · intro u b
    rw [hpc, howner]
    by_cases hu : u = t
    · subst hu
      rw [update_self]
      exact hbuf b
    · rw [update_of_ne hu]
      exact hp.own u b
  · intro k r
    rw [hpc, hreq]
    intro hr
    obtain ⟨h1, h2, h3⟩ := hp.req k r hr
    by_cases hu : r.t = t
    · rw [hu] at h1 h2 h3 ⊢
      rw [update_self]
      refine ⟨hhead.trans h1, ?_, hallow _ h3⟩
      rw [hsame (by rw [hhead, h1]; exact Option.some_ne_none k), h2]
    · rw [update_of_ne hu]
      exact ⟨h1, h2, h3⟩
  · intro u k
    rw [hpc, hreq]
    by_cases hu : u = t
    · subst hu
      rw [update_self, hhead]
      exact hp.head u k
    · rw [update_of_ne hu]
      exact hp.head u k
  · intro u b k
    rw [hpc, hring, hidx]
    by_cases hu : u = t
    · subst hu
      rw [update_self]
      exact fun he => absurd he (hpub b k)
    · rw [update_of_ne hu]
      exact hp.ringed u b k

theorem Pcs.eq_chain (hp : Pcs s) (hl : s.lock = some t) {u : T} {b : B} {i : ℕ} {rest : List ℕ}
    (hu : update s.pc t p u = .chain b i rest) : p = .chain b i rest := by
  by_cases hut : u = t
  · subst hut
    rwa [update_self] at hu
  · rw [update_of_ne hut] at hu
    exact absurd (hp.eq_of_inside hl (by rw [hu]; rfl)) hut

theorem Descs.rest_update (hd : Descs s)
    (hchain : ∀ b i rest, p = .chain b i rest → Linked s.desc (i :: rest)) :
    ∀ u b i rest, update s.pc t p u = .chain b i rest → Linked s.desc (i :: rest) := by
  intro u b i rest
  by_cases hu : u = t
  · subst hu
    rw [update_self]
    exact hchain b i rest
  · rw [update_of_ne hu]
    exact hd.rest u b i rest

/-- A step by which thread `t` goes to `p` with the lock at `l`; `p` has the same descriptors in hand,
the same request and no other buffer. -/
theorem Inv.move (hi : Inv s) {l : Option T}
    (hin : ∀ u, (update s.pc t p u).inside ↔ l = some u)
    (hpart : ({ s with lock := l }.setPc t p).part = s.part)
    (hbuf : ∀ b, p.buf = some b → s.owner b = some t) (hhead : p.head = (s.pc t).head)
    (hsame : p.head ≠ none → p.buf = (s.pc t).buf)
    (hallow : ∀ st, (s.pc t).allows st → p.allows st) (hpub : ∀ b h, p ≠ .publish b h)
    (hchain : ∀ b i rest, p = .chain b i rest → Linked s.desc (i :: rest)) :
    Inv ({ s with lock := l }.setPc t p) where
  descs := hi.descs.congr rfl rfl (fun _ => rfl) hpart (hi.descs.rest_update hchain)
  rings := ⟨hi.rings.avail, hi.rings.work, hi.rings.done, hi.rings.posted, hi.rings.used, hi.rings.slot⟩
  bufs := ⟨hi.bufs.info, hi.bufs.disk, hi.bufs.cleared⟩
  pcs := hi.pcs.move rfl rfl rfl rfl rfl hin hbuf hhead hsame hallow hpub

theorem part_setPc_of_ne (hne : s.lock ≠ some t) : (s.setPc t p).part = s.part := by
  unfold St.part St.setPc
  cases hl : s.lock with
  | none => rfl
  | some u =>
    have hu : u ≠ t := fun he => hne (he ▸ hl)
    show (((update s.pc t p u).descs : List ℕ) : Multiset ℕ) = _
    rw [update_of_ne hu]
    rfl

theorem part_setPc (hl : s.lock = some t) : (s.setPc t p).part = (p.descs : Multiset ℕ) := by
  rw [part_some (s := s.setPc t p) hl]
  show (((update s.pc t p t).descs : List ℕ) : Multiset ℕ) = _
  rw [update_self]

theorem Inv.acquire (hi : Inv s) (hl : s.lock = none) (hin : p.inside) (hdescs : p.descs = [])
    (hbuf : p.buf = (s.pc t).buf) (hhead : p.head = (s.pc t).head)
    (hallow : ∀ st, (s.pc t).allows st → p.allows st) (hpub : ∀ b h, p ≠ .publish b h)
    (hchain : ∀ b i rest, p ≠ .chain b i rest) : Inv ({ s with lock := some t }.setPc t p) := by
  refine hi.move (hi.pcs.inside_acquire hl hin) ?_ ?_ hhead (fun _ => hbuf) hallow hpub
    fun b i rest he => absurd he (hchain b i rest)
  · rw [part_setPc rfl, hdescs, part_none hl]
    rfl
  · intro b hb
    exact hi.pcs.own t b (hbuf ▸ hb)

theorem Inv.release (hi : Inv s) {q : Pc B} (hpc : s.pc t = q) (hin : q.inside)
    (hdescs : q.descs = []) (hp : p.inside = false) (hbuf : ∀ b, p.buf = some b → q.buf = some b)
    (hhead : p.head = q.head) (hsame : p.head ≠ none → p.buf = q.buf)
    (hallow : ∀ st, q.allows st → p.allows st) : Inv ({ s with lock := none }.setPc t p) := by
  subst hpc
  have hl := (hi.pcs.held t).1 hin
  refine hi.move (hi.pcs.inside_release hl hp) ?_ ?_ hhead hsame hallow ?_ ?_
  · rw [part_some hl, hdescs]
    exact part_none rfl
  · intro b hb
    exact hi.pcs.own t b (hbuf b hb)
  · rintro b h rfl
    cases hp
  · rintro b i rest rfl
    cases hp

theorem Inv.call (hi : Inv s) (hidle : s.pc t = .idle) (hp : p.inside = false)
    (hbuf : ∀ b, p.buf = some b → s.owner b = some t) (hhead : p.head = none) :
    Inv (s.setPc t p) := by
  have hout : (s.pc t).inside = false := by rw [hidle]; rfl
  have hne : s.lock ≠ some t := by
    intro hl
    rw [(hi.pcs.held t).2 hl] at hout
    cases hout
  refine hi.move (l := s.lock) (hi.pcs.inside_keep (by rw [hp, hout])) (part_setPc_of_ne hne) hbuf
    (by rw [hhead, hidle]; rfl) (fun h => absurd hhead h) ?_ ?_ ?_
  · intro st hst
    rw [hidle] at hst
    cases hst
  · rintro b h rfl
    cases hhead
  · rintro b i rest rfl
    cases hp

end Moves

/-! ## Descriptors are allocated and freed -/

section Alloc
variable [DecidableEq T] {p : Pc B} {i : ℕ} {l : List ℕ}

theorem setPc_self : (s.setPc t p).pc t = p := update_self ..

theorem setPc_ne {u : T} (hu : u ≠ t) : (s.setPc t p).pc u = s.pc u := update_of_ne hu ..

theorem Descs.take (hd : Descs s) (hl : s.lock = some t) (hfree : s.free i)
    (hdescs : p.descs = (s.pc t).descs ++ [i])
    (hchain : ∀ b j rest, p = .chain b j rest → Linked s.desc (j :: rest)) :
    Descs ((s.setFree i false).setPc t p) := by
  obtain ⟨hlt, hni⟩ := (hd.free i).1 hfree
  have hbusy : ((s.setFree i false).setPc t p).busy = i ::ₘ s.busy := by
    unfold St.busy
    rw [part_setPc (s := s.setFree i false) hl, part_some hl, hdescs, ← Multiset.coe_add,
      ← add_assoc, Multiset.coe_singleton, Multiset.add_comm _ {i}, Multiset.singleton_add]
    rfl
  constructor
  · exact hd.heads
  · rw [hbusy, Multiset.nodup_cons]
    exact ⟨hni, hd.nodup⟩
  · rw [hbusy]
    intro k hk
    rcases Multiset.mem_cons.1 hk with rfl | hk
    · exact hlt
    · exact hd.lt k hk
  · intro k
    rw [hbusy, Multiset.mem_cons]
    show update s.free i false k ↔ _
    by_cases hk : k = i
    · subst hk
      rw [update_self]
      simp
    · rw [update_of_ne hk, hd.free]
      simp [hk]
  · intro k r hr
    exact hd.chain_congr hr fun _ _ => rfl
  · exact hd.rest_update hchain

/-- The lock holder frees the first descriptor in hand; `free_desc` does not panic. -/
theorem Inv.free_desc (hi : Inv s) {q : Pc B} (hpc : s.pc t = q) (hin : q.inside)
    (hdescs : q.descs = i :: l) (hp : p.inside) (hpd : p.descs = l) (hbuf : p.buf = q.buf)
    (hhead : q.head = none) (hph : p.head = none)
    (hchain : ∀ b j rest, p = .chain b j rest → Linked s.desc (j :: rest)) :
    ∃ s', s.freeDesc i = .done () s' ∧ Inv (s'.setPc t p) := by
  subst hpc
  have hl := (hi.pcs.held t).1 hin
  have hd := hi.descs
  have hpart : s.part = i ::ₘ (l : Multiset ℕ) := by
    rw [part_some hl, hdescs]
    rfl
  have hmem : i ∈ s.busy := by
    unfold St.busy
    rw [hpart]
    simp
  have hlt : i < num := hd.lt i hmem
  have hused : s.free i = false := by
    by_contra hne
    exact ((hd.free i).1 (by simpa using hne)).2 hmem
  have hbusy : s.busy = i ::ₘ (((s.setDesc i {}).setFree i true).setPc t p).busy := by
    unfold St.busy
    rw [part_setPc (s := (s.setDesc i {}).setFree i true) hl, hpart, hpd, Multiset.add_cons]
    rfl
  have hnd := hd.nodup
  rw [hbusy, Multiset.nodup_cons] at hnd
  refine ⟨(s.setDesc i {}).setFree i true, ?_, ?_, ?_, ?_, ?_⟩
  · unfold St.freeDesc
    rw [if_neg (by omega), hused]
    rfl
  · constructor
    · exact hd.heads
    · exact hnd.2
    · intro k hk
      exact hd.lt k (hbusy ▸ Multiset.mem_cons_of_mem hk)
    · intro k
      show update s.free i true k ↔ _
      by_cases hk : k = i
      · subst hk
        rw [update_self]
        simp [hlt, hnd.1]
      · rw [update_of_ne hk, hd.free, hbusy, Multiset.mem_cons]
        simp [hk]
    · intro k r hr
      refine hd.chain_congr hr fun j hj => ?_
      have hji : j ≠ i := by
        rintro rfl
        exact hd.notMem_chains (by rw [hpart]; simp) hj
      exact update_of_ne hji ..
    · intro u b j rest hu'
      have hu := hi.pcs.eq_chain hl hu'
      refine (hchain b j rest hu).congr fun k hk => ?_
      have hki : k ≠ i := by
        rintro rfl
        apply hnd.1
        unfold St.busy
        rw [part_setPc (s := (s.setDesc k {}).setFree k true) hl, hu]
        exact Multiset.mem_add.2 (Or.inr (Multiset.mem_coe.2 hk))
      exact update_of_ne hki ..
  · exact ⟨hi.rings.avail, hi.rings.work, hi.rings.done, hi.rings.posted, hi.rings.used,
      hi.rings.slot⟩
  · exact ⟨hi.bufs.info, hi.bufs.disk, hi.bufs.cleared⟩
  · refine hi.pcs.move rfl rfl rfl rfl rfl (hi.pcs.inside_keep (by rw [hp, hin])) ?_
      (by rw [hph, hhead]) (fun h => absurd hph h) ?_ ?_
    · intro b hb
      exact hi.pcs.own t b (hbuf ▸ hb)
    · intro st hst
      exact absurd hhead (Pc.head_of_allows hst)
    · rintro b k rfl
      cases hph

end Alloc

/-! ## Requests -/

section Requests

theorem req_cases {r' r1 : Req T B} {k : ℕ} (hreq : s'.req = update s.req h (some r'))
    (hr1 : s'.req k = some r1) : (k = h ∧ r1 = r') ∨ (k ≠ h ∧ s.req k = some r1) := by
  rw [hreq] at hr1
  by_cases hk : k = h
  · subst hk
    rw [update_self] at hr1
    exact Or.inl ⟨rfl, (Option.some.inj hr1).symm⟩
  · rw [update_of_ne hk] at hr1
    exact Or.inr ⟨hk, hr1⟩

theorem Bufs.stage (hb : Bufs s) {st : Stage} (hr : s.req h = some r)
    (hreq : s'.req = update s.req h (some { r with stage := st })) (hinfo : s'.info = s.info)
    (hdisk : s'.disk = s.disk) (hf : st.finished = r.stage.finished)
    (hh : st = .handled ↔ r.stage = .handled) : Bufs s' := by
  constructor
  · intro k r' hr'
    rw [hinfo]
    obtain ⟨rfl, rfl⟩ | ⟨-, hr'⟩ := req_cases hreq hr'
    · rw [hb.info k r hr, hf]
    · exact hb.info k r' hr'
  · intro k r' hr'
    rw [hdisk]
    obtain ⟨rfl, rfl⟩ | ⟨-, hr'⟩ := req_cases hreq hr'
    · rw [hb.disk k r hr, decide_eq_decide]
      exact not_congr hh.symm
    · exact hb.disk k r' hr'
  · intro k r' hr'
    obtain ⟨rfl, rfl⟩ | ⟨-, hr'⟩ := req_cases hreq hr'
    · show r.cleared = _
      rw [hb.cleared k r hr]
      simp only [hh]
    · exact hb.cleared k r' hr'

theorem Pcs.stage (hp : Pcs s) {r' : Req T B} (hr : s.req h = some r)
    (hreq : s'.req = update s.req h (some r')) (ht : r'.t = r.t) (hb : r'.b = r.b)
    (hout : r.stage.out) (hout' : r'.stage.out) (hpc : s'.pc = s.pc) (hlock : s'.lock = s.lock)
    (howner : s'.owner = s.owner) (hring : s'.availRing = s.availRing)
    (hidx : s'.availIdx = s.availIdx) : Pcs s' := by
  constructor
  · rw [hpc, hlock]; exact hp.held
  · rw [hpc, howner]; exact hp.own
  · intro k r1 hr1
    rw [hreq] at hr1
    rw [hpc]
    by_cases hk : k = h
    · subst hk
      rw [update_self] at hr1
      obtain rfl := Option.some.inj hr1
      obtain ⟨h1, h2, h3⟩ := hp.req k r hr
      rw [ht, hb]
      refine ⟨h1, h2, ?_⟩
      cases hpt : s.pc r.t <;> rw [hpt] at h3 <;> first | exact hout' | skip
      all_goals first | exact h3.elim | (rw [show r.stage = _ from h3] at hout; exact hout.elim)
    · rw [update_of_ne hk] at hr1
      exact hp.req k r1 hr1
  · intro u k
    rw [hpc, hreq]
    intro hu
    obtain ⟨r1, hr1, ht1⟩ := hp.head u k hu
    by_cases hk : k = h
    · subst hk
      obtain rfl : r = r1 := Option.some.inj (hr ▸ hr1)
      exact ⟨r', update_self .., ht.trans ht1⟩
    · exact ⟨r1, by rw [update_of_ne hk]; exact hr1, ht1⟩
  · rw [hpc, hring, hidx]; exact hp.ringed

theorem stage_update {x : Option (Req T B)} (hreq : s'.req = update s.req h x) :
    s'.stage = update s.stage h (x.map Req.stage) := by
  funext k
  unfold St.stage
  rw [hreq]
  by_cases hk : k = h
  · subst hk
    rw [update_self, update_self]
  · rw [update_of_ne hk, update_of_ne hk]

theorem stage_of_req (hr : s.req h = some r) : s.stage h = some r.stage := by
  unfold St.stage
  rw [hr]
  rfl

theorem req_of_stage {st : Stage} (hs : s.stage h = some st) : ∃ r, s.req h = some r ∧ r.stage = st :=
  Option.map_eq_some_iff.1 hs

theorem setStage_req (st : Stage) (hr : s.req h = some r) :
    (s.setStage h st).req = update s.req h (some { r with stage := st }) := by
  unfold St.setStage St.setReq
  rw [hr]
  rfl

theorem shape_update {r' : Req T B} (hr : s.req h = some r)
    (hreq : s'.req = update s.req h (some r')) (hshape : r'.shape = r.shape) (k : ℕ) :
    (s'.req k).map Req.shape = (s.req k).map Req.shape := by
  rw [hreq]
  by_cases hk : k = h
  · subst hk
    rw [update_self, hr, Option.map_some, Option.map_some, hshape]
  · rw [update_of_ne hk]

/-- The lock holder `t` goes to `p` and makes its request `r'`, or moves it on. -/
theorem Pcs.submit [DecidableEq T] (hp : Pcs s) {p : Pc B} {r' : Req T B}
    (hpc : s'.pc = update s.pc t p) (hreq : s'.req = update s.req h (some r'))
    (howner : s'.owner = s.owner) (hlock : s'.lock = s.lock) (hin : (s.pc t).inside)
    (hpin : p.inside) (ht : r'.t = t) (hhead : p.head = some h) (hbuf : p.buf = some r'.b)
    (hown : (s.pc t).buf = some r'.b) (hallow : p.allows r'.stage)
    (hmine : ∀ k r1, s.req k = some r1 → (r1.t = t ↔ k = h))
    (hpub : ∀ b k, p = .publish b k → s'.availRing (Ring.slot num s'.availIdx) = k) : Pcs s' := by
  have hself : s'.pc t = p := by rw [hpc, update_self]
  have hother : ∀ u ≠ t, s'.pc u = s.pc u := fun u hu => by rw [hpc, update_of_ne hu]
  constructor
  · rw [hpc, hlock]
    exact hp.inside_keep (by rw [hpin, hin])
  · intro u b hu
    rw [howner]
    by_cases hut : u = t
    · subst hut
      rw [hself, hbuf, ← hown] at hu
      exact hp.own u b hu
    · rw [hother u hut] at hu
      exact hp.own u b hu
  · intro k r1 hr1
    obtain ⟨rfl, rfl⟩ | ⟨hk, hr1⟩ := req_cases hreq hr1
    · rw [ht, hself]
      exact ⟨hhead, hbuf, hallow⟩
    · rw [hother r1.t fun he => hk ((hmine k r1 hr1).1 he)]
      exact hp.req k r1 hr1
  · intro u k hu
    rw [hreq]
    by_cases hut : u = t
    · subst hut
      rw [hself, hhead] at hu
      obtain rfl := Option.some.inj hu
      exact ⟨r', update_self .., ht⟩
    · rw [hother u hut] at hu
      obtain ⟨r1, hr1, ht1⟩ := hp.head u k hu
      have hk : k ≠ h := fun he => hut (ht1.symm.trans ((hmine k r1 hr1).2 he))
      exact ⟨r1, by rw [update_of_ne hk]; exact hr1, ht1⟩
  · intro u b k hu
    by_cases hut : u = t
    · subst hut
      rw [hself] at hu
      exact hpub b k hu
    · rw [hother u hut] at hu
      exact absurd (hp.eq_of_inside ((hp.held t).1 hin) (by rw [hu]; rfl)) hut

theorem Pcs.buf_ne (hp : Pcs s) {k : ℕ} {r' : Req T B} (hr : s.req h = some r)
    (hr' : s.req k = some r') (hne : k ≠ h) : r'.b ≠ r.b := by
  intro hb
  obtain ⟨h1, h2, -⟩ := hp.req h r hr
  obtain ⟨h1', h2', -⟩ := hp.req k r' hr'
  have ho := hp.own _ _ h2
  have ho' := hp.own _ _ h2'
  rw [hb, ho] at ho'
  rw [← Option.some.inj ho', h1] at h1'
  exact hne (Option.some.inj h1').symm

end Requests

end Xv6.Virtio
