import Xv6.Log.Inv

/-!
# Reference counts and sleep-locks

The actions of `bio.c` keep `Bio`. `bget_cases` says what `bget` can do.
-/

namespace Xv6.Log

open Function Xv6.Threads

variable {T : Type} [DecidableEq T]

@[simp] theorem setBuf_self (s : St T) (i : BufId) (b : Buf T) : (s.setBuf i b).buf i = b := by
  simp [St.setBuf]

theorem setBuf_ne (s : St T) {i j : BufId} (b : Buf T) (h : j ≠ i) :
    (s.setBuf i b).buf j = s.buf j := by
  simp [St.setBuf, h]

theorem bget_cases {s s' : St T} {dev b : ℕ} {t : T} {i : BufId}
    (h : s.bget dev b t = .done i s') :
    ((s.buf i).dev = dev ∧ (s.buf i).blockno = b ∧
      s' = (s.setBuf i { s.buf i with refcnt := (s.buf i).refcnt + 1 }).enter t i) ∨
    ((∀ j ∈ s.lru, ¬ ((s.buf j).dev = dev ∧ (s.buf j).blockno = b)) ∧ (s.buf i).refcnt = 0 ∧
      s' = (s.setBuf i
        { s.buf i with dev := dev, blockno := b, valid := false, refcnt := 1 }).enter t i) := by
  unfold St.bget at h
  split at h
  · rename_i j hj
    cases h
    have := List.find?_some hj
    simp only [decide_eq_true_eq] at this
    exact Or.inl ⟨this.1, this.2, rfl⟩
  · rename_i hnone
    split at h
    · rename_i j hj
      cases h
      have hz := List.find?_some hj
      simp only [decide_eq_true_eq] at hz
      refine Or.inr ⟨fun k hk => ?_, hz, rfl⟩
      simpa using List.find?_eq_none.1 hnone k hk
    · cases h

/-- `bget` panics only if every buffer is referenced and none has the block. -/
theorem bget_panic {s : St T} {dev b : ℕ} {t : T} {m : String} (h : s.bget dev b t = .panic m) :
    m = "bget: no buffers" ∧ (∀ j ∈ s.lru, ¬ ((s.buf j).dev = dev ∧ (s.buf j).blockno = b)) ∧
      ∀ j ∈ s.lru, (s.buf j).refcnt ≠ 0 := by
  unfold St.bget at h
  split at h
  · cases h
  · rename_i hnone
    split at h
    · cases h
    · rename_i hfull
      cases h
      refine ⟨rfl, fun k hk => ?_, fun k hk => ?_⟩
      · simpa using List.find?_eq_none.1 hnone k hk
      · simpa using List.find?_eq_none.1 hfull k (List.mem_reverse.2 hk)

variable {dev : ℕ} {s : St T} {kn : T → BufId → Option ℕ} {pend : T → Option (BufId × ℕ)}
  {raw rel : T → Option BufId} {t : T} {i : BufId} {b : ℕ}

namespace Bio

theorem unused (h : Bio dev s kn pend raw rel) (hr : (s.buf i).refcnt = 0) :
    (∀ u, (u, i) ∉ s.users) ∧ ¬ ((s.buf i).dev = dev ∧ pinned s.hist (s.buf i).blockno) := by
  have hc := h.ref i
  rw [hr] at hc
  constructor
  · intro u hu
    have : 0 < (s.users.map Prod.snd).count i :=
      List.count_pos_iff.2 (List.mem_map.2 ⟨(u, i), hu, rfl⟩)
    split_ifs at hc <;> omega
  · intro hp
    rw [if_pos hp] at hc
    omega

theorem refcnt_nonneg (h : Bio dev s kn pend raw rel) (i : BufId) : 0 ≤ (s.buf i).refcnt := by
  rw [h.ref i]
  split_ifs <;> omega

theorem bget {s' : St T} (h : Bio dev s kn pend raw rel) (hb : b < 2 ^ 32)
    (he : s.bget dev b t = .done i s') :
    Bio dev s' kn (update pend t (some (i, b))) raw rel := by
  rcases bget_cases he with ⟨hd, hbn, rfl⟩ | ⟨hno, hr, rfl⟩
  · -- the cached buffer: only its reference count changes
    cases id h
    constructor <;> simp only [St.enter, St.setBuf, List.map_cons, List.count_cons]
    case kept =>
      intro c hc
      obtain ⟨j, hj⟩ := h.kept c hc
      exact ⟨j, by grind⟩
    all_goals grind
  · -- a recycled buffer: nobody used it, and the new block was not in the cache
    obtain ⟨hnu, hnp⟩ := h.unused hr
    have hnb : ∀ j, ¬ ((s.buf j).dev = dev ∧ (s.buf j).blockno = b) := fun j => hno j (h.mem j)
    have hcnt : (s.users.map Prod.snd).count i = 0 := by
      rw [List.count_eq_zero]
      intro hm
      obtain ⟨⟨u, j⟩, hu, rfl⟩ := List.mem_map.1 hm
      exact hnu u hu
    have hnk : pinned s.hist b ≠ true := fun hp => by
      obtain ⟨j, hj⟩ := h.kept b hp
      exact hnb j hj
    cases id h
    constructor <;> simp only [St.enter, St.setBuf, List.map_cons, List.count_cons]
    case kept =>
      intro c hc
      obtain ⟨j, hj⟩ := h.kept c hc
      exact ⟨j, by grind⟩
    all_goals grind

theorem acquiresleep (h : Bio dev s kn pend raw rel) (hp : pend t = some (i, b))
    (hr : raw t = none) (he : rel t = none) (hl : (s.buf i).lock = none) :
    Bio dev (s.setBuf i { s.buf i with lock := some t })
      (update kn t (update (kn t) i (some b))) (update pend t none)
      (update raw t (some i)) rel := by
  cases id h
  constructor <;> simp only [St.setBuf, update_apply]
  case kept =>
    intro c hc
    obtain ⟨j, hj⟩ := h.kept c hc
    exact ⟨j, by grind⟩
  all_goals grind

theorem bfill (h : Bio dev s kn pend raw rel) (hr : raw t = some i) :
    Bio dev (s.bfill i) kn pend (update raw t none) rel := by
  have hl := h.rawLock t i hr
  cases id h
  unfold St.bfill
  dsimp only
  split_ifs with hv
  all_goals
    constructor <;> simp only [St.setBuf, St.emit, pinned]
    case kept =>
      intro c hc
      obtain ⟨j, hj⟩ := h.kept c hc
      exact ⟨j, by grind⟩
    all_goals grind

theorem releasesleep (h : Bio dev s kn pend raw rel) (hk : kn t i = some b) (hr : raw t = none) :
    Bio dev (s.setBuf i { s.buf i with lock := none })
      (update kn t (update (kn t) i none)) pend raw
      (update rel t (some i)) := by
  cases id h
  constructor <;> simp only [St.setBuf, update_apply]
  case kept =>
    intro c hc
    obtain ⟨j, hj⟩ := h.kept c hc
    exact ⟨j, by grind⟩
  all_goals grind

theorem bput (h : Bio dev s kn pend raw rel) (hp : pend t = none) (he : rel t = some i) :
    Bio dev (s.bput i t) kn pend raw (update rel t none) := by
  obtain ⟨hnl, hu⟩ := h.relUsed t i he
  have hmem : ∀ {p : T × BufId}, p ≠ (t, i) → p ∈ s.users → p ∈ s.users.erase (t, i) :=
    fun hne hp => (List.mem_erase_of_ne hne).2 hp
  have hsub : ∀ {p : T × BufId}, p ∈ s.users.erase (t, i) → p ∈ s.users :=
    fun hp => List.mem_of_mem_erase hp
  have hcount : ∀ j, (((s.users.erase (t, i)).map Prod.snd).count j : ℤ) =
      (s.users.map Prod.snd).count j - if j = i then 1 else 0 := by
    intro j
    have hperm := (List.perm_cons_erase hu).map Prod.snd
    have := hperm.count_eq j
    rw [List.map_cons, List.count_cons] at this
    grind
  -- the move to the front of the LRU list keeps its members
  have hlru : ∀ s' : St T, s'.lru = s.lru ∨ s'.lru = i :: s.lru.erase i →
      (∀ j, j ∈ s'.lru) ∧ s'.lru.Nodup := by
    rintro s' (e | e) <;> rw [e]
    · exact ⟨h.mem, h.nodup⟩
    · refine ⟨fun j => ?_, List.nodup_cons.2 ⟨fun hm => ?_, h.nodup.erase i⟩⟩
      · by_cases hj : j = i
        · exact hj ▸ List.mem_cons_self
        · exact List.mem_cons_of_mem _ ((List.mem_erase_of_ne hj).2 (h.mem j))
      · exact (List.Nodup.mem_erase_iff h.nodup).1 hm |>.1 rfl
  have hl : (s.bput i t).lru = s.lru ∨ (s.bput i t).lru = i :: s.lru.erase i := by
    unfold St.bput; dsimp only; split_ifs
    · exact Or.inr rfl
    · exact Or.inl rfl
  have hbuf : (s.bput i t).buf =
      update s.buf i { s.buf i with refcnt := (s.buf i).refcnt - 1 } := by
    unfold St.bput; dsimp only; split_ifs <;> rfl
  have husers : (s.bput i t).users = s.users.erase (t, i) := by
    unfold St.bput; dsimp only; split_ifs <;> rfl
  have hhist : (s.bput i t).hist = s.hist := by
    unfold St.bput; dsimp only; split_ifs <;> rfl
  cases id h
  constructor <;> try simp only [hbuf, husers, hhist, update_apply]
  case mem => exact (hlru _ hl).1
  case nodup => exact (hlru _ hl).2
  case kept =>
    intro c hc
    obtain ⟨j, hj⟩ := h.kept c hc
    refine ⟨j, ?_⟩
    simp only [hbuf, update_apply]
    grind
  case ref =>
    intro j
    rw [hcount j, apply_ite Buf.refcnt, apply_ite Buf.dev, apply_ite Buf.blockno]
    have hj := h.ref j
    by_cases hji : j = i
    · subst hji
      simp only [if_true]
      rw [hj]
      ring
    · simp only [if_neg hji]
      rw [hj]
      ring
  all_goals grind

theorem bpin (h : Bio dev s kn pend raw rel) {s' : St T} (hd : (s.buf i).dev = dev)
    (hn : pinned s.hist (s.buf i).blockno = false) (hl : s'.lru = s.lru)
    (hu : s'.users = s.users)
    (hb : s'.buf = update s.buf i { s.buf i with refcnt := (s.buf i).refcnt + 1 })
    (hp : ∀ b, pinned s'.hist b = if b = (s.buf i).blockno then true else pinned s.hist b) :
    Bio dev s' kn pend raw rel := by
  cases id h
  constructor <;> try simp only [hl, hu, hb, hp, update_apply]
  case kept =>
    intro c hc
    by_cases hci : c = (s.buf i).blockno
    · exact ⟨i, by rw [hb]; grind⟩
    · rw [if_neg hci] at hc
      obtain ⟨j, hj⟩ := h.kept c hc
      exact ⟨j, by simp only [hb, update_apply]; grind⟩
  all_goals grind

theorem bunpin (h : Bio dev s kn pend raw rel) (hd : (s.buf i).dev = dev)
    (hn : pinned s.hist (s.buf i).blockno) :
    Bio dev (s.bunpin i) kn pend raw rel := by
  cases id h
  constructor <;> try simp only [St.bunpin, St.emit, St.setBuf, pinned, update_apply]
  case kept =>
    intro c hc
    have hc' : pinned s.hist c := by grind
    obtain ⟨j, hj⟩ := h.kept c hc'
    exact ⟨j, by simp only [update_apply]; grind⟩
  all_goals grind

theorem congr (h : Bio dev s kn pend raw rel) {s' : St T} (hl : s'.lru = s.lru)
    (hu : s'.users = s.users) (hb : ∀ j, ∃ d, s'.buf j = { s.buf j with data := d })
    (hp : ∀ b, pinned s'.hist b = pinned s.hist b) : Bio dev s' kn pend raw rel := by
  have hv : ∀ j, (s'.buf j).dev = (s.buf j).dev ∧ (s'.buf j).blockno = (s.buf j).blockno ∧
      (s'.buf j).lock = (s.buf j).lock ∧ (s'.buf j).valid = (s.buf j).valid ∧
      (s'.buf j).refcnt = (s.buf j).refcnt := by
    intro j
    obtain ⟨d, e⟩ := hb j
    rw [e]
    exact ⟨rfl, rfl, rfl, rfl, rfl⟩
  cases id h
  constructor <;> try simp only [hl, hu, hp, hv]
  case kept =>
    intro c hc
    obtain ⟨j, hj⟩ := h.kept c hc
    exact ⟨j, by simp only [hv]; exact hj⟩
  all_goals grind

end Bio

end Xv6.Log
