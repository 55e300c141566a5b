import Xv6.Virtio.Steps

/-!
# The protocol of the virtio driver and its device

The steps that change a request, and from them the invariant of every run.
-/

namespace Xv6.Virtio

open Function Xv6.Threads

variable {T B : Type} {s s' : St T B} {t : T} {r : Req T B} {h : ℕ}

theorem num_dvd : num ∣ 2 ^ 16 := ⟨8192, rfl⟩

/-! ## Requests in flight -/

theorem Pcs.mine (hp : Pcs s) (hr : s.req h = some r) (ht : r.t = t) :
    ∀ k r', s.req k = some r' → (r'.t = t ↔ k = h) := by
  intro k r' hr'
  constructor
  · intro ht'
    have h1 := (hp.req k r' hr').1
    rw [ht', ← ht, (hp.req h r hr).1] at h1
    exact (Option.some.inj h1).symm
  · rintro rfl
    obtain rfl : r = r' := Option.some.inj (hr.symm.trans hr')
    exact ht

variable (hi : Inv s)

include hi

/-- There is room in a ring for a request that is not in it. -/
theorem Inv.room {d : ℕ → ℕ} {x y : BitVec 16} {st : Stage}
    (hd : Listed (Ring.items num d x y) (· = some st) s.stage) (hr : s.req h = some r)
    (hst : r.stage ≠ st) : Ring.count x y < num := by
  have hlen := hd.length_lt (n := num) (i := h) ?_ (hi.descs.head_lt hr) ?_
  · exact Ring.length_items (d := d) ▸ hlen
  · intro k hk
    obtain ⟨r', hr', -⟩ := req_of_stage hk
    exact hi.descs.head_lt hr'
  · rw [stage_of_req hr]
    exact fun he => hst (Option.some.inj he)

/-- The request of a thread that has one. -/
theorem Inv.own_req (hhead : (s.pc t).head = some h) :
    ∃ r, s.req h = some r ∧ r.t = t ∧ (s.pc t).buf = some r.b ∧ (s.pc t).allows r.stage := by
  obtain ⟨r, hr, rfl⟩ := hi.pcs.head t h hhead
  exact ⟨r, hr, rfl, (hi.pcs.req h r hr).2⟩

theorem Inv.status_addr (hr : s.req h = some r) :
    (s.desc (s.desc (s.desc h).next).next).addr = .status h := by
  have hc := hi.descs.chain h r hr
  obtain ⟨-, h1, -, h2, -⟩ := hc.linked
  rw [h1, h2]
  exact hc.status

theorem Inv.completion (hne : s.seenUsed ≠ s.usedIdx) :
    ∃ r, s.req (s.usedRing (Ring.slot num s.seenUsed)) = some r ∧ r.stage = .used := by
  have hitems := Ring.items_pop (d := s.usedRing) num_dvd hne
  apply req_of_stage
  rw [← hi.rings.used.mem]
  unfold St.usedItems
  rw [hitems]
  exact List.mem_cons_self

/-- A thread that finds the disk flag cleared has a request that is handled. -/
theorem Inv.handled_of_disk {b : B} (hpc : s.pc t = .test b h) (hdisk : s.disk b = false) :
    ∃ r, s.req h = some r ∧ r.stage = .handled ∧ r.t = t ∧ r.b = b := by
  obtain ⟨r, hr, ht, hb, -⟩ := hi.own_req (t := t) (by rw [hpc]; rfl)
  rw [hpc] at hb
  obtain rfl : b = r.b := Option.some.inj hb
  have := hi.bufs.disk h r hr
  rw [hdisk] at this
  exact ⟨r, hr, by simpa using this.symm, ht, rfl⟩

omit hi in
/-- The sleep-locks of buffers that no thread works on change hands. -/
theorem Inv.owner (hi : Inv s) {o : B → Option T} (ho : ∀ u b, (s.pc u).buf = some b → o b = some u) :
    Inv { s with owner := o } where
  descs := hi.descs.congr rfl rfl (fun _ => rfl) rfl hi.descs.rest
  rings := ⟨hi.rings.avail, hi.rings.work, hi.rings.done, hi.rings.posted, hi.rings.used, hi.rings.slot⟩
  bufs := ⟨hi.bufs.info, hi.bufs.disk, hi.bufs.cleared⟩
  pcs := ⟨hi.pcs.held, ho, hi.pcs.req, hi.pcs.head, hi.pcs.ringed⟩

omit hi in
theorem chains_setStage (h : ℕ) (st : Stage) : (s.setStage h st).chains = s.chains := by
  apply chains_congr
  intro k
  show (update s.req h _ k).map Req.shape = _
  by_cases hk : k = h
  · subst hk
    rw [update_self, Option.map_map]
    rfl
  · rw [update_of_ne hk]

/-- Device steps and the handler move a published request on, by `Rings` and `Bufs`. -/
theorem Inv.stage {r' : Req T B} (hr : s.req h = some r) (hreq : s'.req = update s.req h (some r'))
    (hshape : r'.shape = r.shape) (ht : r'.t = r.t) (hout : r.stage.out) (hout' : r'.stage.out)
    (hdesc : s'.desc = s.desc) (hfree : s'.free = s.free) (hpc : s'.pc = s.pc)
    (hlock : s'.lock = s.lock) (howner : s'.owner = s.owner) (hring : s'.availRing = s.availRing)
    (hidx : s'.availIdx = s.availIdx) (hrings : Rings s') (hbufs : Bufs s') : Inv s' where
  descs := by
    refine hi.descs.congr hdesc hfree (shape_update hr hreq hshape) ?_ ?_
    · unfold St.part
      rw [hlock, hpc]
    · rw [hpc]
      exact hi.descs.rest
  rings := hrings
  bufs := hbufs
  pcs := hi.pcs.stage hr hreq ht (congrArg Prod.fst hshape) hout hout' hpc hlock howner hring hidx

/-! ## Submission -/

/-- The descriptors that `alloc3_desc` returned become the chain of a request. -/
theorem Inv.format [DecidableEq T] [DecidableEq B] {b : B} {write : Bool} {i0 i1 i2 : ℕ}
    (hpc : s.pc t = .alloc b write [i0, i1, i2]) :
    Inv ((s.format t b write i0 i1 i2).setPc t (.ring b i0)) := by
  have hin : (s.pc t).inside := by rw [hpc]; rfl
  have hl := (hi.pcs.held t).1 hin
  have hd := hi.descs
  have hpart : s.part = Req.descs i0 (⟨t, b, i1, i2, .filled, 0⟩ : Req T B) := by
    rw [part_some hl, hpc]
    rfl
  have hnone : s.req i0 = none := hd.req_none (by rw [hpart]; simp [Req.descs])
  have hlt : i0 < num := hd.lt i0 (by unfold St.busy; rw [hpart]; simp [Req.descs])
  obtain ⟨h01, h02, h12⟩ : i0 ≠ i1 ∧ i0 ≠ i2 ∧ i1 ≠ i2 := by
    have := (Multiset.nodup_add.1 hd.nodup).2.1
    rw [hpart] at this
    simpa [Req.descs, and_assoc] using this
  have hreq : ((s.format t b write i0 i1 i2).setPc t (.ring b i0)).req =
      update s.req i0 (some ⟨t, b, i1, i2, .filled, 0⟩) := rfl
  have hbusy : ((s.format t b write i0 i1 i2).setPc t (.ring b i0)).busy = s.busy := by
    have hch := chains_update hlt hreq
    rw [hnone] at hch
    unfold St.busy
    rw [part_setPc (s := s.format t b write i0 i1 i2) hl, hpart]
    simpa [Pc.descs] using hch
  have hother : ∀ k r', k ≠ i0 → s.req k = some r' → r'.b ≠ b := by
    intro k r' _ hr' hb
    obtain ⟨h1, h2, -⟩ := hi.pcs.req k r' hr'
    have ho := hi.pcs.own t b (by rw [hpc]; rfl)
    rw [← hb, hi.pcs.own _ _ h2] at ho
    rw [Option.some.inj ho, hpc] at h1
    cases h1
  have hmine : ∀ k r', s.req k = some r' → (r'.t = t ↔ k = i0) := by
    intro k r' hr'
    constructor
    · intro ht
      have := (hi.pcs.req k r' hr').1
      rw [ht, hpc] at this
      cases this
    · rintro rfl
      rw [hnone] at hr'
      cases hr'
  have hstage : s.stage i0 = none := by unfold St.stage; rw [hnone]; rfl
  constructor
  · constructor
    · intro k hk
      show update s.req i0 _ k = none
      rw [update_of_ne (by omega)]
      exact hd.heads k hk
    · rw [hbusy]; exact hd.nodup
    · rw [hbusy]; exact hd.lt
    · rw [hbusy]; exact hd.free
    · intro k r' hr'
      obtain ⟨rfl, rfl⟩ | ⟨hk, hr'⟩ := req_cases hreq hr'
      · constructor <;>
          simp [St.setPc, St.format, St.setDesc, Linked, h01, h02, h12]
      · refine hd.chain_congr hr' fun j hj => ?_
        have hne : j ∉ s.part := fun hp => hd.notMem_chains hp hj
        rw [hpart] at hne
        simp only [Req.descs, Multiset.mem_coe, List.mem_cons, List.not_mem_nil, or_false,
          not_or] at hne
        simp [St.setPc, St.format, St.setDesc, hne]
    · intro u b' j rest hu
      cases hi.pcs.eq_chain hl hu
  · have hst : ((s.format t b write i0 i1 i2).setPc t (.ring b i0)).stage =
        update s.stage i0 (some .filled) := stage_update hreq
    have hr := hi.rings
    constructor
    · rw [hst]; exact hr.avail.keep (by simp [hstage])
    · rw [hst]; exact hr.work.keep (by simp [hstage, inWork])
    · rw [hst]; exact hr.done.keep (by simp [hstage])
    · rw [hst]; exact hr.posted.keep (by simp [hstage])
    · rw [hst]; exact hr.used.keep (by simp [hstage])
    · exact hr.slot
  · constructor
    · intro k r' hr'
      show update s.info i0 _ k = _
      obtain ⟨rfl, rfl⟩ | ⟨hk, hr'⟩ := req_cases hreq hr'
      · exact update_self ..
      · rw [update_of_ne hk]
        exact hi.bufs.info k r' hr'
    · intro k r' hr'
      show update s.disk b true r'.b = _
      obtain ⟨rfl, rfl⟩ | ⟨hk, hr'⟩ := req_cases hreq hr'
      · exact update_self ..
      · rw [update_of_ne (hother k r' hk hr')]
        exact hi.bufs.disk k r' hr'
    · intro k r' hr'
      obtain ⟨rfl, rfl⟩ | ⟨hk, hr'⟩ := req_cases hreq hr'
      · rfl
      · exact hi.bufs.cleared k r' hr'
  · exact hi.pcs.submit rfl hreq rfl rfl hin rfl rfl rfl rfl (by rw [hpc]; rfl) rfl hmine (by simp)

theorem Inv.ring [DecidableEq T] {b : B} (hpc : s.pc t = .ring b h) :
    Inv ({ s.setStage h .ringed with
      availRing := update s.availRing (Ring.slot num s.availIdx) h }.setPc t
        (.publish b h)) := by
  have hin : (s.pc t).inside := by rw [hpc]; rfl
  have hl := (hi.pcs.held t).1 hin
  obtain ⟨r, hr, ht, hb, hst⟩ := hi.own_req (t := t) (by rw [hpc]; rfl)
  rw [hpc] at hb hst
  replace hb : b = r.b := Option.some.inj hb
  replace hst : r.stage = .filled := hst
  have hstage := stage_of_req hr
  rw [hst] at hstage
  have hreq := setStage_req .ringed hr
  have hst' := stage_update hreq
  constructor
  · refine hi.descs.congr rfl rfl (shape_update hr hreq rfl) ?_ fun u b' j rest hu => ?_
    · rw [part_some hl, hpc]
      exact part_setPc hl
    · cases hi.pcs.eq_chain hl hu
  · have hrs := hi.rings
    have hroom := hi.room hi.rings.avail hr (by rw [hst]; decide)
    constructor
    · have := hrs.avail.keep (i := h) (x := some .ringed) (by simp [hstage])
      unfold St.availItems at this ⊢
      rw [← Ring.items_write num_dvd hroom h] at this
      exact hst' ▸ this
    · exact hst' ▸ hrs.work.keep (by simp [hstage, inWork])
    · exact hst' ▸ hrs.done.keep (by simp [hstage])
    · exact hst' ▸ hrs.posted.keep (by simp [hstage])
    · exact hst' ▸ hrs.used.keep (by simp [hstage])
    · exact hrs.slot
  · exact hi.bufs.stage hr hreq rfl rfl (by rw [hst]; rfl) (by rw [hst]; decide)
  · refine hi.pcs.submit rfl hreq rfl rfl hin rfl ht rfl (congrArg some hb) ?_ rfl
      (hi.pcs.mine hr ht) ?_
    · rw [hpc]
      exact congrArg some hb
    · rintro b' k ⟨⟩
      exact update_self ..

theorem Inv.publish [DecidableEq T] {b : B} (hpc : s.pc t = .publish b h) :
    Inv ({ s.setStage h .published with availIdx := s.availIdx + 1 }.setPc t (.test b h)) := by
  have hin : (s.pc t).inside := by rw [hpc]; rfl
  have hl := (hi.pcs.held t).1 hin
  obtain ⟨r, hr, ht, hb, hst⟩ := hi.own_req (t := t) (by rw [hpc]; rfl)
  rw [hpc] at hb hst
  replace hb : b = r.b := Option.some.inj hb
  replace hst : r.stage = .ringed := hst
  have hstage := stage_of_req hr
  rw [hst] at hstage
  have hreq := setStage_req .published hr
  have hst' := stage_update hreq
  constructor
  · refine hi.descs.congr rfl rfl (shape_update hr hreq rfl) ?_ fun u b' j rest hu => ?_
    · rw [part_some hl, hpc]
      exact part_setPc hl
    · cases hi.pcs.eq_chain hl hu
  · have hrs := hi.rings
    have hroom := hi.room hi.rings.avail hr (by rw [hst]; decide)
    have hitems := Ring.items_advance (d := s.availRing) num_dvd
      (show Ring.count s.seenAvail s.availIdx + 1 < 2 ^ 16 by unfold num at hroom; omega)
    rw [hi.pcs.ringed t b h hpc] at hitems
    constructor
    · have := hrs.avail.add (i := h) (x := some .published) (by simp [hstage]) rfl
        (List.perm_append_singleton h _)
      refine hst' ▸ ?_
      show Listed (Ring.items num s.availRing s.seenAvail (s.availIdx + 1#16)) _ _
      rw [hitems]
      exact this
    · exact hst' ▸ hrs.work.keep (by simp [hstage, inWork])
    · exact hst' ▸ hrs.done.keep (by simp [hstage])
    · exact hst' ▸ hrs.posted.keep (by simp [hstage])
    · exact hst' ▸ hrs.used.keep (by simp [hstage])
    · exact hrs.slot
  · exact hi.bufs.stage hr hreq rfl rfl (by rw [hst]; rfl) (by rw [hst]; decide)
  · refine hi.pcs.submit rfl hreq rfl rfl hin rfl ht rfl (congrArg some hb) ?_ trivial
      (hi.pcs.mine hr ht) (by simp)
    rw [hpc]
    exact congrArg some hb

/-! ## The device -/

theorem Inv.take (hne : s.seenAvail ≠ s.availIdx) (hh : h = s.availRing (Ring.slot num s.seenAvail)) :
    Inv { s.setStage h .taken with seenAvail := s.seenAvail + 1, work := h :: s.work } := by
  have hitems := Ring.items_pop (d := s.availRing) num_dvd hne
  rw [← hh] at hitems
  have hstage : s.stage h = some .published :=
    (hi.rings.avail.mem h).1 (by unfold St.availItems; rw [hitems]; exact List.mem_cons_self)
  obtain ⟨r, hr, hst⟩ := req_of_stage hstage
  have hreq := setStage_req .taken hr
  have hst' := stage_update hreq
  have hrs := hi.rings
  refine hi.stage hr hreq rfl rfl (by rw [hst]; trivial) trivial rfl rfl rfl rfl rfl rfl rfl ?_ ?_
  · constructor
    · have := hrs.avail.remove (i := h) (x := some .taken) (by simp) (List.Perm.of_eq hitems)
      exact hst' ▸ this
    · have := hrs.work.add (i := h) (x := some .taken) (by simp [hstage, inWork]) (by simp [inWork])
        (List.Perm.refl _)
      exact hst' ▸ this
    · exact hst' ▸ hrs.done.keep (by simp [hstage])
    · exact hst' ▸ hrs.posted.keep (by simp [hstage])
    · exact hst' ▸ hrs.used.keep (by simp [hstage])
    · exact hrs.slot
  · exact hi.bufs.stage hr hreq rfl rfl (by rw [hst]; rfl) (by rw [hst]; decide)

theorem Inv.status {i : ℕ} (hdev : s.dev = .idle) (hh : h ∈ s.work)
    (haddr : (s.desc (s.desc (s.desc h).next).next).addr = .status i) :
    Inv { (s.setInfo i { s.info i with status := 0 }).setStage h .done with dev := .put h } := by
  have hrs := hi.rings
  have hstage : s.stage h = some .taken := by
    have hd := hrs.done.mem h
    have hp := hrs.posted.mem h
    rw [hdev] at hd hp
    rcases (hrs.work.mem h).1 hh with h1 | h1 | h1
    · exact h1
    · exact absurd (hd.2 h1) List.not_mem_nil
    · exact absurd (hp.2 h1) List.not_mem_nil
  obtain ⟨r, hr, hst⟩ := req_of_stage hstage
  obtain rfl : h = i := by
    rw [hi.status_addr hr] at haddr
    injection haddr
  have hreq := setStage_req (s := s.setInfo h { s.info h with status := 0 }) .done hr
  have hst' := stage_update (s := s) hreq
  refine hi.stage hr hreq rfl rfl (by rw [hst]; trivial) trivial rfl rfl rfl rfl rfl rfl rfl ?_ ?_
  · constructor
    · exact hst' ▸ hrs.avail.keep (by simp [hstage])
    · exact hst' ▸ hrs.work.keep (by simp [hstage, inWork])
    · have := hrs.done.add (i := h) (x := some .done) (by simp [hstage]) rfl
        (show List.Perm [h] (h :: s.dev.done) by rw [hdev]; exact List.Perm.refl _)
      exact hst' ▸ this
    · have := hrs.posted.keep (i := h) (x := some .done) (by simp [hstage])
      rw [hdev] at this
      exact hst' ▸ this
    · exact hst' ▸ hrs.used.keep (by simp [hstage])
    · rintro k ⟨⟩
  · constructor
    · intro k r' hr'
      show update s.info h _ k = _
      obtain ⟨rfl, rfl⟩ | ⟨hk, hr'⟩ := req_cases hreq hr'
      · rw [update_self, hi.bufs.info k r hr]
        rfl
      · rw [update_of_ne hk]
        exact hi.bufs.info k r' hr'
    · intro k r' hr'
      obtain ⟨rfl, rfl⟩ | ⟨hk, hr'⟩ := req_cases hreq hr'
      · exact (hi.bufs.disk k r hr).trans (by rw [hst]; rfl)
      · exact hi.bufs.disk k r' hr'
    · intro k r' hr'
      obtain ⟨rfl, rfl⟩ | ⟨hk, hr'⟩ := req_cases hreq hr'
      · exact (hi.bufs.cleared k r hr).trans (by rw [hst]; rfl)
      · exact hi.bufs.cleared k r' hr'

theorem Inv.put (hdev : s.dev = .put h) :
    Inv { s.setStage h .posted with
      usedRing := update s.usedRing (Ring.slot num s.usedIdx) h
      dev := .inc h } := by
  have hrs := hi.rings
  have hstage : s.stage h = some .done :=
    (hrs.done.mem h).1 (by rw [hdev]; exact List.mem_singleton_self h)
  obtain ⟨r, hr, hst⟩ := req_of_stage hstage
  have hreq := setStage_req .posted hr
  have hst' := stage_update hreq
  refine hi.stage hr hreq rfl rfl (by rw [hst]; trivial) trivial rfl rfl rfl rfl rfl rfl rfl ?_ ?_
  · have hroom := hi.room hrs.used hr (by rw [hst]; decide)
    constructor
    · exact hst' ▸ hrs.avail.keep (by simp [hstage])
    · exact hst' ▸ hrs.work.keep (by simp [hstage, inWork])
    · have := hrs.done.remove (i := h) (x := some .posted) (by simp)
        (show List.Perm s.dev.done [h] by rw [hdev]; exact List.Perm.refl _)
      exact hst' ▸ this
    · have := hrs.posted.add (i := h) (x := some .posted) (by simp [hstage]) rfl
        (show List.Perm [h] (h :: s.dev.posted) by rw [hdev]; exact List.Perm.refl _)
      exact hst' ▸ this
    · have := hrs.used.keep (i := h) (x := some .posted) (by simp [hstage])
      unfold St.usedItems at this ⊢
      rw [← Ring.items_write num_dvd hroom h] at this
      exact hst' ▸ this
    · rintro k ⟨⟩
      exact update_self ..
  · exact hi.bufs.stage hr hreq rfl rfl (by rw [hst]; rfl) (by rw [hst]; decide)

theorem Inv.inc (hdev : s.dev = .inc h) :
    Inv { s.setStage h .used with
      usedIdx := s.usedIdx + 1
      work := s.work.erase h
      dev := .idle } := by
  have hrs := hi.rings
  have hstage : s.stage h = some .posted :=
    (hrs.posted.mem h).1 (by rw [hdev]; exact List.mem_singleton_self h)
  obtain ⟨r, hr, hst⟩ := req_of_stage hstage
  have hreq := setStage_req .used hr
  have hst' := stage_update hreq
  refine hi.stage hr hreq rfl rfl (by rw [hst]; trivial) trivial rfl rfl rfl rfl rfl rfl rfl ?_ ?_
  · have hroom := hi.room hrs.used hr (by rw [hst]; decide)
    have hitems := Ring.items_advance (d := s.usedRing) num_dvd
      (show Ring.count s.seenUsed s.usedIdx + 1 < 2 ^ 16 by unfold num at hroom; omega)
    rw [hrs.slot h hdev] at hitems
    constructor
    · exact hst' ▸ hrs.avail.keep (by simp [hstage])
    · have := hrs.work.remove (i := h) (x := some .used) (by simp [inWork])
        (List.perm_cons_erase ((hrs.work.mem h).2 (by simp [hstage, inWork])))
      exact hst' ▸ this
    · have := hrs.done.keep (i := h) (x := some .used) (by simp [hstage])
      rw [hdev] at this
      exact hst' ▸ this
    · have := hrs.posted.remove (i := h) (x := some .used) (by simp)
        (show List.Perm s.dev.posted [h] by rw [hdev]; exact List.Perm.refl _)
      exact hst' ▸ this
    · have := hrs.used.add (i := h) (x := some .used) (by simp [hstage]) rfl
        (List.perm_append_singleton h _)
      refine hst' ▸ ?_
      show Listed (Ring.items num s.usedRing s.seenUsed (s.usedIdx + 1#16)) _ _
      rw [hitems]
      exact this
    · rintro k ⟨⟩
  · exact hi.bufs.stage hr hreq rfl rfl (by rw [hst]; rfl) (by rw [hst]; decide)

/-! ## Completion -/

theorem Inv.handle [DecidableEq B] (hne : s.seenUsed ≠ s.usedIdx) :
    ∃ s', s.handle = .done () s' ∧ s'.pc = s.pc ∧ Inv s' := by
  obtain ⟨r, hr, hst⟩ := hi.completion hne
  have hitems := Ring.items_pop (d := s.usedRing) num_dvd hne
  set id := s.usedRing (Ring.slot num s.seenUsed) with hid
  have hinfo := hi.bufs.info id r hr
  rw [hst] at hinfo
  have hstage := stage_of_req hr
  rw [hst] at hstage
  refine ⟨{ s.setReq id fun r => { r with stage := .handled, cleared := r.cleared + 1 } with
      disk := update s.disk r.b false
      seenUsed := s.seenUsed + 1 }, ?_, rfl, ?_⟩
  · unfold St.handle
    simp only [← hid, hinfo]
    rfl
  have hreq : (s.setReq id fun r => { r with stage := .handled, cleared := r.cleared + 1 }).req =
      update s.req id (some { r with stage := .handled, cleared := r.cleared + 1 }) := by
    unfold St.setReq
    rw [hr]
    rfl
  have hst' := stage_update hreq
  have hrs := hi.rings
  refine hi.stage hr hreq rfl rfl (by rw [hst]; trivial) trivial rfl rfl rfl rfl rfl rfl rfl ?_ ?_
  · constructor
    · exact hst' ▸ hrs.avail.keep (by simp [hstage])
    · exact hst' ▸ hrs.work.keep (by simp [hstage, inWork])
    · exact hst' ▸ hrs.done.keep (by simp [hstage])
    · exact hst' ▸ hrs.posted.keep (by simp [hstage])
    · have := hrs.used.remove (i := id) (x := some .handled) (by simp) (List.Perm.of_eq hitems)
      exact hst' ▸ this
    · exact hrs.slot
  · constructor
    · intro k r' hr'
      obtain ⟨rfl, rfl⟩ | ⟨hk, hr'⟩ := req_cases hreq hr'
      · exact hinfo
      · exact hi.bufs.info k r' hr'
    · intro k r' hr'
      show update s.disk r.b false r'.b = _
      obtain ⟨rfl, rfl⟩ | ⟨hk, hr'⟩ := req_cases hreq hr'
      · exact update_self ..
      · rw [update_of_ne (hi.pcs.buf_ne hr hr' hk)]
        exact hi.bufs.disk k r' hr'
    · intro k r' hr'
      obtain ⟨rfl, rfl⟩ | ⟨hk, hr'⟩ := req_cases hreq hr'
      · show r.cleared + 1 = 1
        rw [hi.bufs.cleared _ r hr, hst]
        rfl
      · exact hi.bufs.cleared k r' hr'

/-- The thread of a request that is handled takes it down; its chain is then in the thread's hands. -/
theorem Inv.clear [DecidableEq T] {b : B} (hpc : s.pc t = .test b h) (hdisk : s.disk b = false) :
    Inv ({ s.setInfo h { s.info h with b := none } with req := update s.req h none }.setPc t
      (.chain b h ((s.req h).elim [] fun r => [r.c1, r.c2]))) := by
  have hin : (s.pc t).inside := by rw [hpc]; rfl
  have hl := (hi.pcs.held t).1 hin
  obtain ⟨r, hr, hst, ht, hb⟩ := hi.handled_of_disk hpc hdisk
  have hd := hi.descs
  have hstage := stage_of_req hr
  rw [hst] at hstage
  rw [hr]
  set s' := { s.setInfo h { s.info h with b := none } with req := update s.req h none }.setPc t
    (.chain b h [r.c1, r.c2]) with hs'
  show Inv s'
  have hreq : s'.req = update s.req h none := rfl
  have hsome : ∀ k r', s'.req k = some r' → k ≠ h ∧ s.req k = some r' := by
    intro k r' hr'
    rw [hreq] at hr'
    obtain ⟨-, ⟨⟩⟩ | hr' := update_cases hr'
    exact hr'
  have hbusy : s'.busy = s.busy := by
    have hch := chains_update (hd.head_lt hr) hreq
    rw [hr] at hch
    have hpart : s'.part = Req.descs h r := part_setPc hl
    have hpart0 : s.part = 0 := by
      rw [part_some hl, hpc]
      rfl
    unfold St.busy
    rw [hpart, hpart0, add_zero]
    simpa using hch
  constructor
  · constructor
    · intro k hk
      by_contra hne
      obtain ⟨r', hr'⟩ := Option.ne_none_iff_exists'.1 hne
      have := (hsome k r' hr').2
      rw [hd.heads k hk] at this
      cases this
    · rw [hbusy]; exact hd.nodup
    · rw [hbusy]; exact hd.lt
    · rw [hbusy]; exact hd.free
    · intro k r' hr'
      exact hd.chain_congr (hsome k r' hr').2 fun _ _ => rfl
    · refine hd.rest_update fun b' j rest he => ?_
      cases he
      exact (hd.chain h r hr).linked
  · have hst' := stage_update hreq
    have hrs := hi.rings
    constructor
    · exact hst' ▸ hrs.avail.keep (by simp [hstage])
    · exact hst' ▸ hrs.work.keep (by simp [hstage, inWork])
    · exact hst' ▸ hrs.done.keep (by simp [hstage])
    · exact hst' ▸ hrs.posted.keep (by simp [hstage])
    · exact hst' ▸ hrs.used.keep (by simp [hstage])
    · exact hrs.slot
  · constructor
    · intro k r' hr'
      obtain ⟨hk, hr'⟩ := hsome k r' hr'
      rw [← hi.bufs.info k r' hr']
      exact update_of_ne hk ..
    · intro k r' hr'
      exact hi.bufs.disk k r' (hsome k r' hr').2
    · intro k r' hr'
      exact hi.bufs.cleared k r' (hsome k r' hr').2
  · constructor
    · exact hi.pcs.inside_keep (by rw [hin]; rfl)
    · intro u b' hu
      by_cases hut : u = t
      · subst hut
        rw [hs', setPc_self] at hu
        exact hi.pcs.own u b' (by rw [hpc]; exact hu)
      · rw [hs', setPc_ne hut] at hu
        exact hi.pcs.own u b' hu
    · intro k r' hr'
      obtain ⟨hk, hr'⟩ := hsome k r' hr'
      rw [hs', setPc_ne fun he => hk ((hi.pcs.mine hr ht k r' hr').1 he)]
      exact hi.pcs.req k r' hr'
    · intro u k hu
      by_cases hut : u = t
      · subst hut
        rw [hs', setPc_self] at hu
        cases hu
      · rw [hs', setPc_ne hut] at hu
        obtain ⟨r', hr', ht'⟩ := hi.pcs.head u k hu
        have hk : k ≠ h := fun he => hut (ht'.symm.trans ((hi.pcs.mine hr ht k r' hr').2 he))
        refine ⟨r', ?_, ht'⟩
        rw [hreq, update_of_ne hk]
        exact hr'
    · intro u b' k hu
      by_cases hut : u = t
      · subst hut
        rw [hs', setPc_self] at hu
        cases hu
      · rw [hs', setPc_ne hut] at hu
        exact hi.pcs.ringed u b' k hu

omit hi

/-! ## Runs -/

section Runs
variable [DecidableEq T]

/-- The step does not panic and keeps the invariant. -/
def Keeps : Outcome (St T B) Unit → Prop
  | .wait => True
  | .panic _ => False
  | .done _ s => Inv s

theorem Inv.keeps_acquire (hi : Inv s) {p q : Pc B} (hpc : s.pc t = q) (hin : p.inside)
    (hdescs : p.descs = []) (hbuf : p.buf = q.buf) (hhead : p.head = q.head)
    (hallow : ∀ st, q.allows st → p.allows st) (hpub : ∀ b h, p ≠ .publish b h)
    (hchain : ∀ b i rest, p ≠ .chain b i rest) : Keeps (s.acquire t p) := by
  subst hpc
  unfold St.acquire
  cases hl : s.lock with
  | some u => trivial
  | none => exact hi.acquire hl hin hdescs hbuf hhead hallow hpub hchain

/-- `alloc3_desc` with fewer than three descriptors. -/
theorem Inv.alloc (hi : Inv s) {b : B} {write : Bool} {idx : List ℕ}
    (hpc : s.pc t = .alloc b write idx) :
    Keeps (match s.firstFree with
      | none => .done () (s.setPc t (.undo b write idx))
      | some i => .done () ((s.setFree i false).setPc t (.alloc b write (idx ++ [i])))) := by
  have hin : (s.pc t).inside := by rw [hpc]; rfl
  have hl := (hi.pcs.held t).1 hin
  have hown := hi.pcs.own t b (by rw [hpc]; rfl)
  have hallow : ∀ st, ¬ (s.pc t).allows st := by rw [hpc]; exact fun _ => id
  have hbuf : ∀ b', some b = some b' → s.owner b' = some t := by rintro b' ⟨⟩; exact hown
  cases hf : s.firstFree with
  | none =>
    refine hi.move (l := s.lock) (hi.pcs.inside_keep (by rw [hin]; rfl)) ?_ hbuf (by rw [hpc]; rfl)
      (fun h => absurd rfl h) (fun st h => absurd h (hallow st)) nofun nofun
    rw [part_some hl, hpc]
    exact part_setPc hl
  | some i =>
    have hfree : s.free i := List.find?_some hf
    refine ⟨hi.descs.take hl hfree (by rw [hpc]; rfl) nofun, ?_, ?_, ?_⟩
    · exact ⟨hi.rings.avail, hi.rings.work, hi.rings.done, hi.rings.posted, hi.rings.used,
        hi.rings.slot⟩
    · exact ⟨hi.bufs.info, hi.bufs.disk, hi.bufs.cleared⟩
    · exact hi.pcs.move rfl rfl rfl rfl rfl (hi.pcs.inside_keep (by rw [hin]; rfl)) hbuf
        (by rw [hpc]; rfl) (fun h => absurd rfl h) (fun st h => absurd h (hallow st)) nofun

theorem acquire_of_held {u : T} {p : Pc B} (hl : s.lock = some t) : s.acquire u p = .wait := by
  unfold St.acquire
  rw [hl]

theorem freeDesc_chains {i : ℕ} {p : Pc B} (h : St.goto t p (s.freeDesc i) = .done () s') :
    s'.chains = s.chains := by
  unfold St.freeDesc at h
  split at h
  · cases h
  split at h
  · cases h
  · cases h
    rfl

variable [DecidableEq B]

theorem Inv.step (hi : Inv s) (t : T) : Keeps (s.step t) := by
  unfold St.step
  split
  case h_1 => trivial
  case h_2 b write hpc =>
    exact hi.keeps_acquire hpc rfl rfl rfl rfl (fun _ => id) nofun nofun
  case h_3 b write i0 i1 i2 hpc => exact hi.format hpc
  case h_4 b write idx _ hpc => exact hi.alloc hpc
  case h_5 b write hpc =>
    exact hi.release hpc rfl rfl rfl (fun _ => id) rfl (fun h => absurd rfl h) (fun _ => id)
  case h_6 b write i idx hpc =>
    obtain ⟨s', hs', hi'⟩ := hi.free_desc (p := .undo b write idx) hpc rfl rfl rfl rfl rfl rfl rfl
      nofun
    rw [hs']
    exact hi'
  case h_7 b write hpc =>
    exact hi.keeps_acquire hpc rfl rfl rfl rfl (fun _ => id) nofun nofun
  case h_8 b h hpc => exact hi.ring hpc
  case h_9 b h hpc => exact hi.publish hpc
  case h_10 b h hpc =>
    split
    case isTrue =>
      exact hi.release hpc rfl rfl rfl (fun _ => id) rfl (fun _ => rfl) (fun _ => id)
    case isFalse hdisk => exact hi.clear hpc (by simpa using hdisk)
  case h_11 b h hpc =>
    exact hi.keeps_acquire hpc rfl rfl rfl rfl (fun _ => id) nofun nofun
  case h_12 b i rest hpc =>
    have hlink := hi.descs.rest t b i rest hpc
    cases rest with
    | nil =>
      replace hlink : (s.desc i).hasNext = false := hlink
      obtain ⟨s', hs', hi'⟩ := hi.free_desc (p := .leave b) hpc rfl rfl rfl rfl rfl rfl rfl nofun
      simp only [hlink, hs']
      exact hi'
    | cons j rest =>
      obtain ⟨hnext, hj, hlink⟩ := hlink
      obtain ⟨s', hs', hi'⟩ := hi.free_desc (p := .chain b j rest) hpc rfl rfl rfl rfl rfl rfl rfl
        (by rintro b' k l ⟨⟩; exact hlink)
      simp only [hnext, hj, hs']
      exact hi'
  case h_13 b hpc =>
    exact hi.release hpc rfl rfl rfl nofun rfl (fun h => absurd rfl h) (fun _ => id)
  case h_14 hpc =>
    exact hi.keeps_acquire hpc rfl rfl rfl rfl (fun _ => id) nofun nofun
  case h_15 hpc =>
    split
    case isTrue =>
      exact hi.release hpc rfl rfl rfl nofun rfl (fun h => absurd rfl h) (fun _ => id)
    case isFalse hne =>
      obtain ⟨s', hs', hpc', hi'⟩ := hi.handle hne
      rw [hs']
      show Inv (s'.setPc t .intr)
      have : s'.setPc t .intr = s' := by
        unfold St.setPc
        rw [← hpc, ← hpc', update_eq_self]
      rw [this]
      exact hi'

theorem Step.inv (hi : Inv s) (h : Step s s') : Inv s' := by
  cases h with
  | @lockBuf t b hidle hfree =>
    apply hi.owner
    intro u b' hu
    have ho := hi.pcs.own u b' hu
    rw [update_of_ne]
    · exact ho
    · rintro rfl
      rw [hfree] at ho
      cases ho
  | @unlockBuf t b hidle hown =>
    apply hi.owner
    intro u b' hu
    have ho := hi.pcs.own u b' hu
    rw [update_of_ne]
    · exact ho
    · rintro rfl
      rw [hown] at ho
      rw [← Option.some.inj ho, hidle] at hu
      cases hu
  | rw write hidle hown => exact hi.call hidle rfl (by rintro b ⟨⟩; exact hown) rfl
  | intr hidle => exact hi.call hidle rfl nofun rfl
  | step t hs =>
    have := hi.step t
    rw [hs] at this
    exact this
  | take hne hh => exact hi.take hne hh
  | status hdev hh haddr => exact hi.status hdev hh haddr
  | put hdev => exact hi.put hdev
  | inc hdev => exact hi.inc hdev

theorem reach_inv {blockno : B → ℕ} (h : Reach (init blockno) s) : Inv s := by
  induction h with
  | refl => exact inv_init blockno
  | tail _ hstep ih => exact hstep.inv ih

/-! ## A failing `alloc3_desc` -/

/-- The runs during which thread `t` stays in `alloc3_desc`. -/
def During (t : T) : St T B → St T B → Prop :=
  Relation.ReflTransGen fun a b => Step a b ∧ (b.pc t).allocating = true

/-- A thread that stays in `alloc3_desc` makes and takes down no request. -/
theorem step_chains_self (ht : (s.pc t).allocating) (hs : s.step t = .done () s')
    (ht' : (s'.pc t).allocating) : s'.chains = s.chains := by
  unfold St.step at hs
  split at hs
  case h_3 b write i0 i1 i2 hpc =>
    cases hs
    rw [setPc_self] at ht'
    cases ht'
  case h_4 b write idx _ hpc =>
    split at hs <;> cases hs <;> rfl
  case h_5 b write hpc => cases hs; rfl
  case h_6 b write i idx hpc => exact freeDesc_chains hs
  all_goals
    rename_i hpc
    rw [hpc] at ht
    cases ht

/-- Nor does any other thread meanwhile. -/
theorem step_of_held {u : T} (hi : Inv s) (hl : s.lock = some t) (hu : u ≠ t) :
    s.step u = .wait := by
  have hin : (s.pc u).inside ≠ true := fun h => hu (hi.pcs.eq_of_inside hl h)
  unfold St.step
  split
  case h_1 => rfl
  case h_2 => exact acquire_of_held hl
  case h_7 => exact acquire_of_held hl
  case h_11 => exact acquire_of_held hl
  case h_14 => exact acquire_of_held hl
  all_goals
    rename_i hpc
    rw [hpc] at hin
    exact absurd rfl hin

theorem During.step (hi : Inv s) (ht : (s.pc t).allocating) (h : Step s s')
    (ht' : (s'.pc t).allocating) : s'.chains = s.chains := by
  have hl := (hi.pcs.held t).1 (Pc.inside_of_allocating ht)
  cases h with
  | lockBuf | unlockBuf | rw | intr => rfl
  | step u hs =>
    by_cases hu : u = t
    · subst hu
      exact step_chains_self ht hs ht'
    · rw [step_of_held hi hl hu] at hs
      cases hs
  | take => exact chains_setStage ..
  | status => exact chains_setStage (s := s.setInfo _ _) ..
  | put => exact chains_setStage ..
  | inc => exact chains_setStage ..

theorem During.chains (hi : Inv s) (ht : (s.pc t).allocating) (h : During t s s') :
    Inv s' ∧ (s'.pc t).allocating ∧ s'.chains = s.chains := by
  induction h with
  | refl => exact ⟨hi, ht, rfl⟩
  | tail _ hstep ih =>
    obtain ⟨hi', ht', he⟩ := ih
    exact ⟨hstep.1.inv hi', hstep.2, (During.step hi' ht' hstep.1 hstep.2).trans he⟩

/-! ## The protocol -/

/-- `n` steps of thread `t`. -/
def St.steps (t : T) : ℕ → St T B → Option (St T B)
  | 0, s => some s
  | n + 1, s =>
    match s.step t with
    | .done _ s' => s'.steps t n
    | _ => none

end Runs

end Xv6.Virtio
