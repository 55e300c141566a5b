import Xv6.Update

/-!
# The disk queue of the x86 kernel

`iderw`, `idestart` and `ideintr` of `ide.c`. A request is a buffer; the queue is linked through
`qnext`, and its first buffer is the one that the device works on. Everything between `acquire` and
`release` (or `sleep`) of `idelock` is one step.
-/

namespace Xv6.X86.Ide

open Function

variable {B D : Type} [DecidableEq B]

def fssize : ℕ := 1000

/-- A buffer with its flags `B_VALID` and `B_DIRTY`. -/
structure Buf (D : Type) where
  dev : ℕ
  blockno : ℕ
  valid : Bool
  dirty : Bool
  data : D

/-- `(b->flags & (B_VALID|B_DIRTY)) == B_VALID`. -/
def Buf.synced (x : Buf D) : Bool := x.valid && !x.dirty

/-- A command of the device, for the buffer `buf`. -/
structure Command (B D : Type) where
  buf : B
  unit : ℕ
  blockno : ℕ
  write : Option D

/-- The command that `idestart` gives for a buffer. -/
def Buf.command (x : Buf D) (b : B) : Command B D :=
  ⟨b, x.dev % 2, x.blockno, if x.dirty then some x.data else none⟩

/-- The disk after a command, which ends without an error if `ok`. -/
def Command.finish (c : Command B D) (ok : Bool) (disk : ℕ → ℕ → D) : ℕ → ℕ → D :=
  match c.write with
  | some d => if ok then update disk c.unit (update (disk c.unit) c.blockno d) else disk
  | none => disk

/-- The driver and the device. `device` has the commands whose interrupt has not been handled;
the three lists of requests are a history. -/
structure St (B D : Type) where
  buf : B → Buf D
  qnext : B → Option B
  idequeue : Option B
  device : List (Command B D)
  disk : ℕ → ℕ → D
  arrived : List B
  started : List B
  completed : List B

def idestart (b : B) (s : St B D) : Except String (St B D) :=
  if fssize ≤ (s.buf b).blockno then .error "incorrect blockno"
  else .ok { s with device := s.device ++ [(s.buf b).command b], started := s.started ++ [b] }

/-- The loop of `iderw` that puts `b` behind the last buffer, if it ends after at most `n` rounds. -/
def append (b : B) (qnext : B → Option B) : ℕ → B → Option (B → Option B)
  | 0, _ => none
  | n + 1, c =>
    match qnext c with
    | none => some (update qnext c (some b))
    | some c' => append b qnext n c'

/-- `b` goes to the end of the queue. -/
def enqueue [Fintype B] (b : B) (s : St B D) : Option (St B D) :=
  let qnext := update s.qnext b none
  match s.idequeue with
  | none => some { s with qnext, idequeue := some b, arrived := s.arrived ++ [b] }
  | some c =>
    (append b qnext (Fintype.card B) c).map fun qnext =>
      { s with qnext, arrived := s.arrived ++ [b] }

/-- `iderw` up to its first `sleep`; an error is a panic. The flags are those that were tested
before, so that it does sleep. -/
def iderw [Fintype B] (disk1 : Bool) (b : B) (s : St B D) : Option (Except String (St B D)) :=
  if (s.buf b).synced then some (.error "iderw: nothing to do")
  else if (s.buf b).dev ≠ 0 ∧ disk1 = false then some (.error "iderw: ide disk 1 not present")
  else (enqueue b s).map fun s => if s.idequeue = some b then idestart b s else .ok s

/-- The end of `ideintr`: the disk is started on the next buffer. -/
def startNext (s : St B D) : Except String (St B D) :=
  match s.idequeue with
  | none => .ok s
  | some c => idestart c s

/-- `ideintr`, which returns the buffer that it wakes. `ok` is the result of `idewait(1)` and `d`
the data for `insl`. -/
def ideintr (ok : Bool) (d : D) (s : St B D) : Except String (St B D × Option B) :=
  match s.idequeue with
  | none => .ok (s, none)
  | some b =>
    let x := s.buf b
    (startNext { s with
      idequeue := s.qnext b
      buf := update s.buf b
        { x with data := if !x.dirty && ok then d else x.data, valid := true, dirty := false }
      completed := s.completed ++ [b] }).map fun s => (s, some b)

/-- The first command ends, and the interrupt is handled. -/
def interrupt (ok : Bool) (s : St B D) : Option (Except String (St B D × Option B)) :=
  match s.device with
  | [] => none
  | c :: cs => some (ideintr ok (s.disk c.unit c.blockno)
      { s with device := cs, disk := c.finish ok s.disk })

/-- Where the call of `iderw` for a buffer is. -/
inductive Pc where
  | idle
  | asleep
  | runnable
  deriving DecidableEq

structure Conf (B D : Type) where
  ide : St B D
  pc : B → Pc
  returned : List B

def wakeup (w : Option B) (pc : B → Pc) (b : B) : Pc :=
  if w = some b ∧ pc b = .asleep then .runnable else pc b

/-- The steps of the kernel. The holder of a buffer, or `bget`, changes it while `iderw` is not
called for it; a process may be woken by `kill`. -/
inductive Step [Fintype B] (disk1 : Bool) : Conf B D → Conf B D → Prop
  | own {c : Conf B D} {b : B} (x : Buf D) (h : c.pc b = .idle) :
    Step disk1 c { c with ide := { c.ide with buf := update c.ide.buf b x } }
  | call {c : Conf B D} {b : B} {s : St B D} (h : c.pc b = .idle)
      (hs : iderw disk1 b c.ide = some (.ok s)) :
    Step disk1 c { c with ide := s, pc := update c.pc b .asleep }
  | intr {c : Conf B D} {s : St B D} {w : Option B} (ok : Bool)
      (hs : interrupt ok c.ide = some (.ok (s, w))) :
    Step disk1 c { c with ide := s, pc := wakeup w c.pc }
  | kill {c : Conf B D} {b : B} (h : c.pc b = .asleep) :
    Step disk1 c { c with pc := update c.pc b .runnable }
  | ret {c : Conf B D} {b : B} (h : c.pc b = .runnable) (hb : (c.ide.buf b).synced = true) :
    Step disk1 c { c with pc := update c.pc b .idle, returned := c.returned ++ [b] }
  | again {c : Conf B D} {b : B} (h : c.pc b = .runnable) (hb : (c.ide.buf b).synced = false) :
    Step disk1 c { c with pc := update c.pc b .asleep }

/-- An empty queue, with any buffers and any disk. -/
def boot (buf : B → Buf D) (disk : ℕ → ℕ → D) : Conf B D :=
  ⟨⟨buf, fun _ => none, none, [], disk, [], [], []⟩, fun _ => .idle, []⟩

/-! ## Links -/

/-- The links from `o` on lead through the buffers of a list. -/
def Links (qnext : B → Option B) : Option B → List B → Prop
  | o, [] => o = none
  | o, b :: l => o = some b ∧ Links qnext (qnext b) l

variable {f g : B → Option B} {o : Option B} {q : List B} {b c : B}

omit [DecidableEq B] in
theorem Links.congr (h : Links f o q) (hfg : ∀ c ∈ q, f c = g c) : Links g o q := by
  induction q generalizing o with
  | nil => exact h
  | cons b q ih =>
    refine ⟨h.1, ?_⟩
    rw [← hfg b List.mem_cons_self]
    exact ih h.2 fun c hc => hfg c (List.mem_cons_of_mem b hc)

theorem append_eq {n : ℕ} (h : Links f (f c) q) (hn : q.length < n) (hq : (c :: q).Nodup)
    (hb : b ∉ c :: q) (hf : f b = none) :
    ∃ g, append b f n c = some g ∧ Links g (some c) (c :: q ++ [b]) ∧ ∀ d ∉ c :: q, g d = f d := by
  induction q generalizing c n with
  | nil =>
    obtain ⟨n, rfl⟩ := Nat.exists_eq_succ_of_ne_zero (Nat.ne_zero_of_lt hn)
    have hbc : b ≠ c := by simpa using hb
    refine ⟨update f c (some b), ?_, ⟨rfl, ?_, ?_⟩, ?_⟩
    · unfold append
      rw [show f c = none from h]
    · exact update_self ..
    · rw [update_of_ne hbc]
      exact hf
    · intro d hd
      exact update_of_ne (by simpa using hd) ..
  | cons d q ih =>
    obtain ⟨n, rfl⟩ := Nat.exists_eq_succ_of_ne_zero (Nat.ne_zero_of_lt hn)
    obtain ⟨hc, hq'⟩ := List.nodup_cons.1 hq
    obtain ⟨g, hg, hl, hsame⟩ := ih h.2 (Nat.lt_of_succ_lt_succ hn) hq'
      fun hm => hb (List.mem_cons_of_mem c hm)
    refine ⟨g, ?_, ⟨rfl, ?_⟩, ?_⟩
    · unfold append
      rw [h.1]
      exact hg
    · rw [hsame c hc, h.1]
      exact hl
    · exact fun e he => hsame e fun hm => he (List.mem_cons_of_mem c hm)

section

variable [Fintype B] {s s' : St B D}

/-- The loop ends, and `b` is at the end of the queue. -/
theorem enqueue_eq (h : Links s.qnext s.idequeue q) (hq : q.Nodup) (hb : b ∉ q) :
    ∃ g, enqueue b s = some { s with
      qnext := g, idequeue := (q ++ [b]).head?, arrived := s.arrived ++ [b] } ∧
      Links g (q ++ [b]).head? (q ++ [b]) := by
  have h' : Links (update s.qnext b none) s.idequeue q := by
    refine h.congr fun c hc => ?_
    rw [update_of_ne]
    rintro rfl
    exact hb hc
  unfold enqueue
  cases q with
  | nil =>
    rw [show s.idequeue = none from h]
    exact ⟨_, rfl, rfl, update_self ..⟩
  | cons c q =>
    have hcard : q.length < Fintype.card B := by
      have := hq.length_le_card
      rwa [List.length_cons] at this
    obtain ⟨g, hg, hl, -⟩ := append_eq h'.2 hcard hq hb (update_self ..)
    rw [h.1]
    dsimp only
    rw [hg]
    refine ⟨g, ?_, hl⟩
    simp

end

omit [DecidableEq B] in
theorem idestart_eq {s s' : St B D} (h : idestart b s = .ok s') :
    s' = { s with device := s.device ++ [(s.buf b).command b], started := s.started ++ [b] } := by
  unfold idestart at h
  split at h
  · cases h
  · cases h
    rfl

/-! ## The invariant -/

/-- The queue has the buffers `q`: the requests that have not been completed. -/
structure Queue (s : St B D) (q : List B) : Prop where
  links : Links s.qnext s.idequeue q
  nodup : q.Nodup
  arrived : s.arrived = s.completed ++ q
  started : s.started = s.completed ++ q.take 1
  device : s.device = (q.take 1).map fun b => (s.buf b).command b

/-- The calls for one buffer, of which `n` have returned and `m` have begun. -/
structure Calls (x : Buf D) (p : Pc) (queued : Prop) (n m : ℕ) : Prop where
  waits : queued → p ≠ .idle ∧ x.synced = false
  done : ¬ queued → p ≠ .idle → p = .runnable ∧ x.synced = true
  count : n + (if p = .idle then 0 else 1) = m

structure Inv (c : Conf B D) (q : List B) : Prop where
  queue : Queue c.ide q
  calls : ∀ b, Calls (c.ide.buf b) (c.pc b) (b ∈ q) (c.returned.count b) (c.ide.arrived.count b)

variable {k k' : Conf B D} {s s' : St B D}

theorem Inv.notMem (h : Inv k q) (hb : k.pc b = .idle) : b ∉ q := fun hm => ((h.calls b).waits hm).1 hb

omit [DecidableEq B] in
theorem Queue.setBuf (h : Queue s q) {buf : B → Buf D} (hb : ∀ b ∈ q, buf b = s.buf b) :
    Queue { s with buf := buf } q := by
  refine ⟨h.links, h.nodup, h.arrived, h.started, h.device.trans (List.map_congr_left ?_)⟩
  intro b hm
  exact congrArg (Buf.command · b) (hb b (List.mem_of_mem_take hm)).symm

theorem Queue.iderw [Fintype B] (disk1 : Bool) (h : Queue s q) (hb : b ∉ q) :
    ∃ r, iderw disk1 b s = some r ∧ ∀ s', r = .ok s' → Queue s' (q ++ [b]) ∧
      (s.buf b).synced = false ∧ s'.buf = s.buf ∧ s'.arrived = s.arrived ++ [b] := by
  unfold Ide.iderw
  split
  · exact ⟨_, rfl, fun _ he => by cases he⟩
  · rename_i hs
    split
    · exact ⟨_, rfl, fun _ he => by cases he⟩
    · obtain ⟨g, hg, hl⟩ := enqueue_eq h.links h.nodup hb
      rw [hg]
      refine ⟨_, rfl, fun s' he => ?_⟩
      have hnodup : (q ++ [b]).Nodup := List.nodup_append_comm.1 (List.nodup_cons.2 ⟨hb, h.nodup⟩)
      have harr : s.arrived ++ [b] = s.completed ++ (q ++ [b]) := by rw [h.arrived, List.append_assoc]
      cases q with
      | nil =>
        obtain rfl := idestart_eq ((if_pos rfl).symm.trans he)
        refine ⟨⟨hl, hnodup, harr, ?_, ?_⟩, by simpa using hs, rfl, rfl⟩
        · simp [h.started]
        · simp [h.device]
      | cons c q =>
        have hne : some c ≠ some b := fun e => hb (Option.some.inj e ▸ List.mem_cons_self)
        cases (if_neg hne).symm.trans he
        exact ⟨⟨hl, hnodup, harr, h.started, h.device⟩, by simpa using hs, rfl, rfl⟩

omit [DecidableEq B] in
theorem startNext_queue (hl : Links s.qnext s.idequeue q) (hq : q.Nodup)
    (ha : s.arrived = s.completed ++ q) (hst : s.started = s.completed) (hd : s.device = [])
    (h : startNext s = .ok s') :
    Queue s' q ∧ s'.buf = s.buf ∧ s'.arrived = s.arrived ∧ s'.completed = s.completed := by
  unfold startNext at h
  cases q with
  | nil =>
    rw [show s.idequeue = none from hl] at h
    cases h
    exact ⟨⟨hl, hq, ha, by rw [hst]; simp, hd⟩, rfl, rfl, rfl⟩
  | cons c q =>
    rw [hl.1] at h
    obtain rfl := idestart_eq h
    exact ⟨⟨hl, hq, ha, by rw [hst]; rfl, by rw [hd]; rfl⟩, rfl, rfl, rfl⟩

/-- An interrupt is for the first request, and removes it. -/
theorem Queue.interrupt {ok : Bool} {w : Option B} (h : Queue s q)
    (hi : interrupt ok s = some (.ok (s', w))) :
    ∃ b q', q = b :: q' ∧ w = some b ∧ Queue s' q' ∧ s'.completed = s.completed ++ [b] ∧
      s'.arrived = s.arrived ∧ (s'.buf b).synced ∧ ∀ c ≠ b, s'.buf c = s.buf c := by
  unfold Ide.interrupt at hi
  rw [h.device] at hi
  cases q with
  | nil => cases hi
  | cons b q =>
    have hi := Option.some.inj hi
    unfold ideintr at hi
    rw [h.links.1] at hi
    dsimp only at hi
    cases hn : startNext _ with
    | error m =>
      rw [hn] at hi
      cases hi
    | ok s₁ =>
      rw [hn] at hi
      cases hi
      obtain ⟨hq, hbuf, harr, hc⟩ := startNext_queue (q := q) h.links.2 (List.nodup_cons.1 h.nodup).2
        (by rw [h.arrived, List.append_assoc]; rfl) h.started rfl hn
      refine ⟨b, q, rfl, rfl, hq, hc, harr, ?_, ?_⟩
      · rw [hbuf]
        simp [Buf.synced]
      · intro c hcb
        rw [hbuf]
        exact update_of_ne hcb ..

/-! ## Runs -/

theorem Inv.boot (buf : B → Buf D) (disk : ℕ → ℕ → D) : Inv (boot buf disk) [] :=
  ⟨⟨rfl, List.nodup_nil, rfl, rfl, rfl⟩, fun _ => ⟨by simp, fun _ h => absurd rfl h, rfl⟩⟩

/-- What one step does to the calls for the buffer that it is about. -/
theorem Inv.setPc (h : Inv k q) (b : B) {p : Pc} {r : List B}
    (hb : Calls (k.ide.buf b) p (b ∈ q) (r.count b) (k.ide.arrived.count b))
    (hr : ∀ c ≠ b, r.count c = k.returned.count c) :
    Inv { k with pc := update k.pc b p, returned := r } q := by
  refine ⟨h.queue, fun c => ?_⟩
  by_cases hc : c = b
  · subst hc
    dsimp only
    rwa [update_self]
  · dsimp only
    rw [update_of_ne hc, hr c hc]
    exact h.calls c

theorem Inv.step [Fintype B] {disk1 : Bool} (h : Inv k q) (hs : Step disk1 k k') :
    ∃ q', Inv k' q' := by
  cases hs with
  | @own b x hi =>
    have hb := h.notMem hi
    refine ⟨q, h.queue.setBuf ?_, ?_⟩
    · intro c hc
      exact update_of_ne (fun e : c = b => hb (e ▸ hc)) ..
    · intro c
      by_cases hc : c = b
      · subst hc
        exact ⟨fun hm => absurd hm hb, fun _ hp => absurd hi hp, (h.calls c).count⟩
      · dsimp only
        rw [update_of_ne hc]
        exact h.calls c
  | @call b s hi hs =>
    have hb := h.notMem hi
    obtain ⟨r, hr, hok⟩ := h.queue.iderw disk1 hb
    obtain ⟨hq, hsync, hbuf, harr⟩ := hok s (Option.some.inj (hr.symm.trans hs))
    refine ⟨q ++ [b], hq, fun c => ?_⟩
    dsimp only
    rw [hbuf, harr]
    by_cases hc : c = b
    · subst hc
      have := (h.calls c).count
      rw [if_pos hi] at this
      rw [update_self]
      refine ⟨fun _ => ⟨by simp, hsync⟩, fun hm => absurd (by simp) hm, ?_⟩
      simp [← this]
    · rw [update_of_ne hc]
      obtain ⟨hw, hd, hn⟩ := h.calls c
      refine ⟨?_, ?_, ?_⟩
      · simpa [hc] using hw
      · simpa [hc] using hd
      · simpa [List.count_singleton, Ne.symm hc] using hn
  | @intr s w ok hs =>
    obtain ⟨b, q', rfl, rfl, hq, -, harr, hsync, hbuf⟩ := h.queue.interrupt hs
    refine ⟨q', hq, fun c => ?_⟩
    obtain ⟨hw, hd, hn⟩ := h.calls c
    dsimp only
    rw [harr]
    by_cases hc : c = b
    · subst hc
      have hne := (hw List.mem_cons_self).1
      have hpc : wakeup (some c) k.pc c = .runnable := by
        unfold wakeup
        cases hp : k.pc c <;> simp_all
      rw [hpc]
      rw [if_neg hne] at hn
      exact ⟨fun hm => absurd hm (List.nodup_cons.1 h.queue.nodup).1, fun _ _ => ⟨rfl, hsync⟩, hn⟩
    · have hpc : wakeup (some b) k.pc c = k.pc c := by
        unfold wakeup
        rw [if_neg fun e => hc (Option.some.inj e.1).symm]
      rw [hpc, hbuf c hc]
      exact ⟨fun hm => hw (List.mem_cons_of_mem b hm),
        fun hm => hd fun hm' => hm ((List.mem_cons.1 hm').resolve_left hc), hn⟩
  | @kill b hp =>
    obtain ⟨hw, hd, hn⟩ := h.calls b
    refine ⟨q, h.setPc b ⟨fun hm => ⟨by simp, (hw hm).2⟩, ?_, ?_⟩ fun _ _ => rfl⟩
    · intro hm _
      exact ⟨rfl, (hd hm (by simp [hp])).2⟩
    · simpa [hp] using hn
  | @ret b hp hb =>
    obtain ⟨hw, hd, hn⟩ := h.calls b
    refine ⟨q, h.setPc b ⟨?_, fun _ he => absurd rfl he, ?_⟩ ?_⟩
    · intro hm
      rw [(hw hm).2] at hb
      cases hb
    · simpa [hp] using hn
    · intro c hc
      simp [Ne.symm hc]
  | @again b hp hb =>
    obtain ⟨hw, hd, hn⟩ := h.calls b
    refine ⟨q, h.setPc b ⟨fun _ => ⟨by simp, hb⟩, ?_, ?_⟩ fun _ _ => rfl⟩
    · intro hm _
      rw [(hd hm (by simp [hp])).2] at hb
      cases hb
    · simpa [hp] using hn

theorem inv_of_reach [Fintype B] {disk1 : Bool} {buf : B → Buf D} {disk : ℕ → ℕ → D}
    (h : Relation.ReflTransGen (Step disk1) (boot buf disk) k) : ∃ q, Inv k q := by
  induction h with
  | refl => exact ⟨[], Inv.boot buf disk⟩
  | tail _ hs ih =>
    obtain ⟨q, hq⟩ := ih
    exact hq.step hs

/-- The queue has the requests that are not completed in the order of their arrival, and the first
of them is the one that was started. A call sleeps only while its buffer is in the queue, and has
returned no more often than its requests were completed. The loop of `iderw` ends, and an interrupt
removes the first request. -/
theorem ide_queue_fifo [Fintype B] {disk1 : Bool} {buf : B → Buf D} {disk : ℕ → ℕ → D}
    (h : Relation.ReflTransGen (Step disk1) (boot buf disk) k) :
    ∃ q, Links k.ide.qnext k.ide.idequeue q ∧ q.Nodup ∧
      k.ide.arrived = k.ide.completed ++ q ∧ k.ide.started = k.ide.completed ++ q.take 1 ∧
      k.ide.device = (q.take 1).map (fun b => (k.ide.buf b).command b) ∧
      (∀ b, k.pc b = .asleep → b ∈ q) ∧ (∀ b ∈ q, k.pc b ≠ .idle) ∧
      (∀ b, k.returned.count b ≤ k.ide.completed.count b) ∧
      (∀ b, k.pc b = .idle → k.returned.count b = k.ide.arrived.count b) ∧
      (∀ b, k.pc b = .idle → iderw disk1 b k.ide ≠ none) ∧
      ∀ ok s w, interrupt ok k.ide = some (.ok (s, w)) → ∃ b q', q = b :: q' ∧ w = some b ∧
        Links s.qnext s.idequeue q' ∧ s.completed = k.ide.completed ++ [b] := by
  obtain ⟨q, hq⟩ := inv_of_reach h
  refine ⟨q, hq.queue.links, hq.queue.nodup, hq.queue.arrived, hq.queue.started, hq.queue.device,
    ?_, fun b hb => ((hq.calls b).waits hb).1, ?_, ?_, ?_, ?_⟩
  · intro b hb
    by_contra hm
    have := ((hq.calls b).done hm (by simp [hb])).1
    rw [hb] at this
    cases this
  · intro b
    have hn := (hq.calls b).count
    rw [hq.queue.arrived, List.count_append] at hn
    by_cases hm : b ∈ q
    · rw [if_neg ((hq.calls b).waits hm).1, List.count_eq_one_of_mem hq.queue.nodup hm] at hn
      omega
    · rw [List.count_eq_zero_of_not_mem hm] at hn
      omega
  · intro b hb
    have hn := (hq.calls b).count
    rwa [if_pos hb] at hn
  · intro b hb
    obtain ⟨r, hr, -⟩ := hq.queue.iderw disk1 (hq.notMem hb)
    rw [hr]
    exact Option.some_ne_none r
  · intro ok s w hi
    obtain ⟨b, q', rfl, hw, hq', hc, -⟩ := hq.queue.interrupt hi
    exact ⟨b, q', rfl, hw, hq'.links, hc⟩

/-- Two calls, the first of which returns. -/
theorem ide_queue_fifo_two : ∃ k : Conf Bool ℕ, k.returned = [false] ∧
    k.ide.arrived = [false, true] ∧ ∃ q, Links k.ide.qnext k.ide.idequeue q ∧
      k.ide.arrived = k.ide.completed ++ q := by
  have h₁ : Step true (boot (fun _ : Bool => ⟨0, 0, false, false, 0⟩) fun _ _ => 7) _ :=
    .call (b := false) rfl rfl
  have h := (((Relation.ReflTransGen.single h₁).tail (.call (b := true) rfl rfl)).tail
    (.intr true rfl)).tail (.ret (b := false) rfl rfl)
  obtain ⟨q, hl, -, ha, -⟩ := ide_queue_fifo h
  exact ⟨_, rfl, rfl, q, hl, ha⟩

end Xv6.X86.Ide
