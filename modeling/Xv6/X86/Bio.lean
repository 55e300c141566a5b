import Xv6.X86.Ide

/-!
# The buffer cache of the x86 kernel over a disk that can fail

`bread`, `bwrite` and `brelse` of `bio.c`, called one after the other, with the outcome of the disk
command that each may cause. The list through `next` is `order`. The contents that a block was last
read, written or modified with are recorded in `last`.
-/

namespace Xv6.X86.Bio

open Function Xv6.X86.Ide

variable {B D : Type} [DecidableEq B] [Fintype B]

structure Cache (B D : Type) where
  ide : St B D
  order : List B
  refcnt : B → ℕ
  locked : B → Bool
  last : ℕ × ℕ → Option D

/-- The block that a buffer is for. -/
def key (x : Buf D) : ℕ × ℕ := (x.dev, x.blockno)

inductive Stop where
  | panic (m : String)
  | waits

def setBuf (s : Cache B D) (b : B) (x : Buf D) : Cache B D :=
  { s with ide := { s.ide with buf := update s.ide.buf b x } }

/-- `acquiresleep` by the only process, which waits for ever if it holds the lock. -/
def acquiresleep (s : Cache B D) (b : B) : Except Stop (Cache B D × B) :=
  if s.locked b then .error .waits else .ok ({ s with locked := update s.locked b true }, b)

/-- The buffer that the first loop of `bget` finds. -/
def Cache.find (s : Cache B D) (k : ℕ × ℕ) : Option B :=
  s.order.find? fun b => key (s.ide.buf b) = k

def bget (k : ℕ × ℕ) (s : Cache B D) : Except Stop (Cache B D × B) :=
  match s.find k with
  | some b => acquiresleep { s with refcnt := update s.refcnt b (s.refcnt b + 1) } b
  | none =>
    match s.order.reverse.find? fun b => s.refcnt b = 0 ∧ (s.ide.buf b).dirty = false with
    | none => .error (.panic "bget: no buffers")
    | some b =>
      let s := setBuf s b ⟨k.1, k.2, false, false, (s.ide.buf b).data⟩
      acquiresleep { s with refcnt := update s.refcnt b 1 } b

/-- `iderw` while no other call is made: the command ends, without an error if `ok`, and the process
is woken. -/
def rw (disk1 ok : Bool) (b : B) (s : Cache B D) : Except Stop (Cache B D) :=
  match iderw disk1 b s.ide with
  | none => .error .waits
  | some (.error m) => .error (.panic m)
  | some (.ok ide) =>
    match interrupt ok ide with
    | none => .error .waits
    | some (.error m) => .error (.panic m)
    | some (.ok (ide', _)) =>
      if (ide'.buf b).synced = false then .error .waits
      else .ok { s with
        ide := ide'
        last := if ok then update s.last (key (s.ide.buf b)) (some (ide'.buf b).data) else s.last }

def bread (disk1 ok : Bool) (k : ℕ × ℕ) (s : Cache B D) : Except Stop (Cache B D × B) := do
  let (s, b) ← bget k s
  if (s.ide.buf b).valid = false then
    let s ← rw disk1 ok b s
    return (s, b)
  else return (s, b)

def bwrite (disk1 ok : Bool) (b : B) (s : Cache B D) : Except Stop (Cache B D) :=
  if s.locked b = false then .error (.panic "bwrite")
  else rw disk1 ok b (setBuf s b { s.ide.buf b with dirty := true })

def brelse (b : B) (s : Cache B D) : Except Stop (Cache B D) :=
  if s.locked b = false then .error (.panic "brelse")
  else .ok { s with
    locked := update s.locked b false
    refcnt := update s.refcnt b (s.refcnt b - 1)
    order := if s.refcnt b - 1 = 0 then b :: s.order.erase b else s.order }

/-- The holder of a buffer stores `d` in it. -/
def modify (b : B) (d : D) (s : Cache B D) : Cache B D :=
  { setBuf s b { s.ide.buf b with data := d } with
    last := update s.last (key (s.ide.buf b)) (some d) }

/-- The calls of the process; `ok` is the outcome of the command that a call may cause. -/
inductive Step (disk1 ok : Bool) (s : Cache B D) : Cache B D → Prop
  | bread {s' : Cache B D} (k : ℕ × ℕ) (b : B) (h : bread disk1 ok k s = .ok (s', b)) :
    Step disk1 ok s s'
  | bwrite {s' : Cache B D} (b : B) (h : bwrite disk1 ok b s = .ok s') : Step disk1 ok s s'
  | brelse {s' : Cache B D} (b : B) (h : brelse b s = .ok s') : Step disk1 ok s s'
  | modify (b : B) (d : D) (h : s.locked b = true) : Step disk1 ok s (modify b d s)

/-- After `binit`, with the buffers in any order. -/
def boot (order : List B) (d : D) (disk : ℕ → ℕ → D) : Cache B D :=
  ⟨(Ide.boot (fun _ => ⟨0, 0, false, false, d⟩) disk).ide, order, fun _ => 0, fun _ => false,
    fun _ => none⟩

/-! ## Commands that succeed -/

/-- What holds if no command failed; `e` is a buffer that `bget` has just returned. A block is found
in its valid buffer. -/
structure Inv (s : Cache B D) (e : Option B) : Prop where
  idle : s.ide.idequeue = none ∧ s.ide.device = []
  clean : ∀ b, (s.ide.buf b).dirty = false
  locked : ∀ b, s.locked b → (s.ide.buf b).valid ∨ e = some b
  found : ∀ b, (s.ide.buf b).valid → s.find (key (s.ide.buf b)) = some b
  last : ∀ b, (s.ide.buf b).valid → s.last (key (s.ide.buf b)) = some (s.ide.buf b).data

variable {s s' : Cache B D} {b c : B} {e : Option B} {k : ℕ × ℕ} {disk1 : Bool}

omit [DecidableEq B] [Fintype B] in
theorem find_imp {p q : B → Bool} {l : List B} (h : l.find? p = some b) (hq : q b)
    (hqp : ∀ c, q c → p c) : l.find? q = some b := by
  rw [List.find?_eq_some_iff_append] at h ⊢
  obtain ⟨-, l₁, l₂, rfl, hl⟩ := h
  refine ⟨hq, l₁, l₂, rfl, fun c hc => ?_⟩
  have := hl c hc
  have := hqp c
  grind

omit [Fintype B] in
theorem find_erase {p : B → Bool} {l : List B} (h : p b = false) :
    (l.erase b).find? p = l.find? p := by
  induction l with
  | nil => rfl
  | cons c l ih =>
    by_cases hc : c = b
    · subst hc
      rw [List.erase_cons_head, List.find?_cons_of_neg (by simp [h])]
    · rw [List.erase_cons_tail (by simpa using hc), List.find?_cons, List.find?_cons, ih]

omit [DecidableEq B] [Fintype B] in
theorem key_find (h : s.find k = some b) : key (s.ide.buf b) = k := by
  simpa using List.find?_some h

omit [Fintype B] in
/-- The buffer `b` gets the contents that its block now has. -/
theorem Inv.fill {x : Buf D} (h : Inv s e) (he : ∀ c, e = some c → c = b)
    (hf : s.find (key (s.ide.buf b)) = some b) (hx : key x = key (s.ide.buf b))
    (hv : x.valid) (hd : x.dirty = false) (ho : s'.order = s.order)
    (hl : s'.locked = s.locked) (hi : s'.ide.idequeue = none ∧ s'.ide.device = [])
    (hb : s'.ide.buf = update s.ide.buf b x)
    (hlast : s'.last = update s.last (key (s.ide.buf b)) (some x.data)) : Inv s' none := by
  have hkey : ∀ c, key (s'.ide.buf c) = key (s.ide.buf c) := by
    intro c
    rw [hb]
    by_cases hc : c = b
    · rw [hc, update_self, hx]
    · rw [update_of_ne hc]
  have hfind : ∀ k, s'.find k = s.find k := by
    intro k
    simp only [Cache.find, hkey, ho]
  refine ⟨hi, fun c => ?_, fun c hc => .inl ?_, fun c hc => ?_, fun c hc => ?_⟩
  · rw [hb]
    by_cases hc : c = b
    · rw [hc, update_self, hd]
    · rw [update_of_ne hc, h.clean]
  · rw [hb]
    by_cases hcb : c = b
    · rw [hcb, update_self, hv]
    · rw [update_of_ne hcb]
      exact (h.locked c (hl ▸ hc)).resolve_right fun hce => hcb (he c hce)
  · rw [hkey, hfind]
    by_cases hcb : c = b
    · rw [hcb, hf]
    · rw [hb, update_of_ne hcb] at hc
      exact h.found c hc
  · rw [hkey, hlast, hb]
    by_cases hcb : c = b
    · rw [hcb, update_self, update_self]
    · rw [hb, update_of_ne hcb] at hc
      have hne : key (s.ide.buf c) ≠ key (s.ide.buf b) := by
        intro hk
        have := h.found c hc
        rw [hk, hf] at this
        exact hcb (Option.some.inj this).symm
      rw [update_of_ne hne, update_of_ne hcb, h.last c hc]

/-- A command that succeeds transfers the data. -/
theorem rw_ok (hi : s.ide.idequeue = none ∧ s.ide.device = []) (h : rw disk1 true b s = .ok s') :
    s'.order = s.order ∧ s'.locked = s.locked ∧ (s'.ide.idequeue = none ∧ s'.ide.device = []) ∧
      ∃ d, s'.ide.buf = update s.ide.buf b
          { s.ide.buf b with data := d, valid := true, dirty := false } ∧
        s'.last = update s.last (key (s.ide.buf b)) (some d) ∧
        ((s.ide.buf b).dirty → d = (s.ide.buf b).data ∧
          s'.ide.disk ((s.ide.buf b).dev % 2) (s.ide.buf b).blockno = d) := by
  unfold rw iderw enqueue at h
  rw [hi.1] at h
  simp only [idestart, Option.map_some, if_true, hi.2, List.nil_append] at h
  split_ifs at h
  cases hd : (s.ide.buf b).dirty <;>
    simp [interrupt, ideintr, startNext, Except.map, Buf.command, Command.finish, Buf.synced, hd] at h
  · subst h
    exact ⟨rfl, rfl, ⟨rfl, rfl⟩, _, rfl, rfl, by simp⟩
  · subst h
    exact ⟨rfl, rfl, ⟨rfl, rfl⟩, _, rfl, rfl, fun _ => ⟨rfl, by simp⟩⟩

omit [Fintype B] in
theorem acquiresleep_ok (h : acquiresleep s b = .ok (s', c)) :
    s' = { s with locked := update s.locked b true } ∧ c = b := by
  unfold acquiresleep at h
  split at h
  · cases h
  · cases h
    exact ⟨rfl, rfl⟩

omit [Fintype B] in
/-- An unused buffer is taken for a block that no buffer is for. -/
theorem Inv.recycle {x : Buf D} (h : Inv s none) (hf : s.find (key x) = none) (hm : b ∈ s.order)
    (hv : x.valid = false) (hd : x.dirty = false) (ho : s'.order = s.order)
    (hl : s'.locked = update s.locked b true)
    (hi : s'.ide.idequeue = none ∧ s'.ide.device = []) (hb : s'.ide.buf = update s.ide.buf b x)
    (hlast : s'.last = s.last) : Inv s' (some b) ∧ s'.find (key x) = some b := by
  have hk : ∀ c ∈ s.order, key (s.ide.buf c) ≠ key x := by
    simpa [Cache.find] using hf
  have hself : s'.ide.buf b = x := by rw [hb, update_self]
  have hne : ∀ c ≠ b, s'.ide.buf c = s.ide.buf c := fun c hc => by rw [hb, update_of_ne hc]
  have hvalid : ∀ c, (s'.ide.buf c).valid → c ≠ b := by
    rintro c hc rfl
    rw [hself, hv] at hc
    cases hc
  refine ⟨⟨hi, fun c => ?_, fun c hc => ?_, fun c hc => ?_, fun c hc => ?_⟩, ?_⟩
  · by_cases hc : c = b
    · rw [hc, hself, hd]
    · rw [hne c hc, h.clean]
  · obtain ⟨rfl, -⟩ | ⟨hcb, hc⟩ := update_cases (hl ▸ hc)
    · exact .inr rfl
    · rw [hne c hcb]
      exact .inl ((h.locked c hc).resolve_right nofun)
  · have hcb := hvalid c hc
    rw [hne c hcb] at hc ⊢
    have hfc := h.found c hc
    unfold Cache.find at hfc ⊢
    rw [ho]
    refine find_imp hfc (by simp [hne c hcb]) fun d hd => ?_
    by_cases hdb : d = b
    · simp only [hdb, hself, decide_eq_true_eq] at hd
      exact absurd hd.symm (hk c (List.mem_of_find?_eq_some hfc))
    · simpa [hne d hdb] using hd
  · have hcb := hvalid c hc
    rw [hne c hcb] at hc ⊢
    rw [hlast, h.last c hc]
  · unfold Cache.find
    rw [ho]
    cases hd : s.order.find? _ with
    | none => simpa [hself] using List.find?_eq_none.1 hd b hm
    | some d =>
      by_contra hdb
      have hdb : d ≠ b := fun e => hdb (congrArg some e)
      have hk' := List.find?_some hd
      simp only [hne d hdb, decide_eq_true_eq] at hk'
      exact hk d (List.mem_of_find?_eq_some hd) hk'

omit [Fintype B] in
theorem Inv.bget (h : Inv s none) (hb : bget k s = .ok (s', b)) :
    Inv s' (some b) ∧ s'.find k = some b := by
  unfold Bio.bget at hb
  split at hb
  · rename_i c hf
    obtain ⟨rfl, rfl⟩ := acquiresleep_ok hb
    refine ⟨⟨h.idle, h.clean, fun c hc => ?_, h.found, h.last⟩, hf⟩
    obtain ⟨rfl, -⟩ | ⟨-, hc⟩ := update_cases hc
    · exact .inr rfl
    · exact .inl ((h.locked c hc).resolve_right nofun)
  · rename_i hf
    split at hb
    · cases hb
    · rename_i c hv
      obtain ⟨rfl, rfl⟩ := acquiresleep_ok hb
      exact h.recycle (x := ⟨k.1, k.2, false, false, _⟩) hf
        (List.mem_reverse.1 (List.mem_of_find?_eq_some hv)) rfl rfl rfl rfl h.idle rfl rfl

/-- `bread` returns the contents of the block. -/
theorem Inv.bread (h : Inv s none) (hb : bread disk1 true k s = .ok (s', b)) :
    Inv s' none ∧ s'.find k = some b ∧ (s'.ide.buf b).valid := by
  unfold Bio.bread at hb
  cases hg : Bio.bget k s with
  | error e =>
    rw [hg] at hb
    cases hb
  | ok r =>
    obtain ⟨s₁, c⟩ := r
    obtain ⟨h₁, hf⟩ := h.bget hg
    rw [hg] at hb
    simp only [bind, Except.bind, pure, Except.pure] at hb
    have hk := key_find hf
    split at hb
    · cases hr : rw disk1 true c s₁ with
      | error e =>
        rw [hr] at hb
        cases hb
      | ok s₂ =>
        rw [hr] at hb
        cases hb
        obtain ⟨ho, hl, hi, d, hbuf, hlast, -⟩ := rw_ok h₁.idle hr
        have h₂ := h₁.fill (x := { s₁.ide.buf b with data := d, valid := true, dirty := false })
          (fun c hc => (Option.some.inj hc).symm) (by rw [hk, hf]) rfl rfl rfl ho hl hi hbuf hlast
        have hv : (s'.ide.buf b).valid := by rw [hbuf, update_self]
        have := h₂.found b hv
        rw [hbuf, update_self] at this
        exact ⟨h₂, hk ▸ this, hv⟩
    · rename_i hv
      cases hb
      have hv : (s'.ide.buf b).valid := by simpa using hv
      refine ⟨⟨h₁.idle, h₁.clean, fun c hc => .inl ?_, h₁.found, h₁.last⟩, hf, hv⟩
      obtain hc | ⟨⟨⟩⟩ := h₁.locked c hc
      · exact hc
      · exact hv

theorem Inv.bwrite (h : Inv s none) (hb : bwrite disk1 true b s = .ok s') :
    Inv s' none ∧ (s'.ide.buf b).data = (s.ide.buf b).data ∧
      s'.ide.disk ((s.ide.buf b).dev % 2) (s.ide.buf b).blockno = (s.ide.buf b).data := by
  unfold Bio.bwrite at hb
  split at hb
  · cases hb
  · rename_i hl
    have hv := (h.locked b (by simpa using hl)).resolve_right nofun
    obtain ⟨ho, hl, hi, d, hbuf, hlast, hd⟩ := rw_ok (s := setBuf s b _) h.idle hb
    simp only [setBuf, update_self, update_idem] at hbuf hlast hd
    obtain ⟨rfl, hdisk⟩ := hd trivial
    refine ⟨h.fill (x := { s.ide.buf b with valid := true, dirty := false }) nofun (h.found b hv) rfl
      rfl rfl ho hl hi hbuf hlast, ?_, hdisk⟩
    rw [hbuf, update_self]

theorem Inv.step (h : Inv s none) (hs : Step disk1 true s s') : Inv s' none := by
  cases hs with
  | bread k b hb => exact (h.bread hb).1
  | bwrite b hb => exact (h.bwrite hb).1
  | brelse b hb =>
    unfold brelse at hb
    split at hb
    · cases hb
    · rename_i hl
      cases hb
      have hv := (h.locked b (by simpa using hl)).resolve_right nofun
      refine ⟨h.idle, h.clean, fun c hc => ?_, fun c hc => ?_, h.last⟩
      · obtain ⟨-, ⟨⟩⟩ | ⟨-, hc⟩ := update_cases hc
        exact h.locked c hc
      · have hfc := h.found c hc
        unfold Cache.find at hfc ⊢
        dsimp only
        split
        · by_cases hcb : c = b
          · rw [hcb, List.find?_cons_of_pos (by simp)]
          · have hne : key (s.ide.buf b) ≠ key (s.ide.buf c) := by
              intro hk
              have := h.found b hv
              rw [hk, h.found c hc] at this
              exact hcb (Option.some.inj this)
            rw [List.find?_cons_of_neg (by simpa using hne), find_erase (by simpa using hne), hfc]
        · exact hfc
  | modify b d hl =>
    have hv := (h.locked b hl).resolve_right nofun
    exact h.fill (x := { s.ide.buf b with data := d }) nofun (h.found b hv) rfl hv (h.clean b) rfl rfl
      h.idle rfl rfl

omit [DecidableEq B] [Fintype B] in
theorem Inv.boot (order : List B) (d : D) (disk : ℕ → ℕ → D) : Inv (boot order d disk) none :=
  ⟨⟨rfl, rfl⟩, fun _ => rfl, nofun, nofun, nofun⟩

end Xv6.X86.Bio
