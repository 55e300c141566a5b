import Xv6.Fs.Held
import Xv6.Threads.Own

/-!
# Writers that share an open file

`filewrite` of `file.c` on a `struct file` of type `FD_INODE`, called by any number of threads on the
same `struct file`. The offset is in the `struct file`, and the lock of the inode protects it. A write
is cut into pieces, and the lock is released between them.

The state also records the calls, what they returned, and the pieces that `writei` reported written,
in the order of the critical sections; no step reads them.
-/

namespace Xv6.Fs.Shared

open Function Xv6.Threads

/-- A call of `filewrite`: its `n`, and the bytes of the source that can be read. -/
structure Call where
  n : ℤ
  src : ℕ → Option UInt8

/-- Bytes `i, …, i + len - 1` of the source of a call, written at `off`. -/
structure Piece where
  call : ℕ
  src : ℕ → Option UInt8
  i : ℕ
  off : ℕ
  len : ℕ

/-- `f->off`, with the calls, what they returned and what they wrote. -/
structure File where
  off : ℕ
  calls : List Call
  ret : ℕ → Option ℤ
  pieces : List Piece

/-- What `filewrite` does to the `struct file`. -/
inductive FileAct where
  | enter (c : Call)
  | getOff
  /-- `f->off += r`. -/
  | advance (call : ℕ) (src : ℕ → Option UInt8) (i r : ℕ)
  | leave (call : ℕ) (r : ℤ)

@[reducible] def FileAct.Ret : FileAct → Type
  | .enter _ => ℕ
  | .getOff => ℕ
  | _ => Unit

def FileAct.exec : (e : FileAct) → File → Outcome File e.Ret
  | .enter c, f => .done f.calls.length { f with calls := f.calls ++ [c] }
  | .getOff, f => .done f.off f
  | .advance call src i r, f => .done ()
      { f with off := (f.off + r) % 2 ^ 32, pieces := f.pieces ++ [⟨call, src, i, f.off, r⟩] }
  | .leave call r, f => .done () { f with ret := update f.ret call (some r) }

variable {T : Type}

/-- The `struct file` is the only kernel table. -/
abbrev fileEnv (T : Type) : Env T where
  X := File
  E := FileAct
  Ret := FileAct.Ret
  exec e _ f := e.exec f
  refs _ _ := 0

/-! ## The program -/

def onFile (e : FileAct) : P (fileEnv T) e.Ret := perform (V := fileEnv T) (.ext e)

section

variable (sb : Sb) (k : SlotId)

/-- `if (r > 0) f->off += r`. -/
def advance (call : ℕ) (src : ℕ → Option UInt8) (i : ℕ) (r : ℤ) : P (fileEnv T) Unit :=
  if 0 < r then onFile (.advance call src i r.toNat) else return ()

/-- One round of the loop of `filewrite`: `n1` bytes from byte `i` of the source on. -/
def writePiece (call : ℕ) (src : ℕ → Option UInt8) (i n1 : ℕ) : P (fileEnv T) ℤ := do
  beginOp
  let ip ← ilock k
  let off ← onFile .getOff
  let w ← writei sb (fun j => src (i + j)) ip off n1
  advance call src i w.1
  iunlock w.2
  endOp
  return w.1

/-- The loop of `filewrite` from byte `i` on. The last argument bounds the number of rounds. -/
def writeLoop (call : ℕ) (src : ℕ → Option UInt8) (n i : ℕ) : ℕ → P (fileEnv T) ℕ
  | 0 => return i
  | fuel + 1 =>
    if i < n then do
      let r ← writePiece sb k call src i (min (n - i) maxWrite)
      if r ≠ (min (n - i) maxWrite : ℕ) then return i
      else writeLoop call src n (i + min (n - i) maxWrite) fuel
    else return i

/-- `filewrite` on the inode in entry `k` of the inode table. -/
def filewrite (writable : Bool) (c : Call) : P (fileEnv T) Unit := do
  let call ← onFile (.enter c)
  if writable = false then onFile (.leave call (-1))
  else do
    let i ← writeLoop sb k call c.src c.n.toNat 0 c.n.toNat
    onFile (.leave call (if (i : ℤ) = c.n then c.n else -1))

variable [DecidableEq T]

/-- Threads that call `filewrite`. -/
def writers (writable : Bool) :
    Sys T (Act FileAct) (Act.Ret (fileEnv T)) Call (St T File) where
  exec := exec (V := fileEnv T) sb
  may _ _ _ := True
  code c _ := filewrite sb k writable c
  cond _ _ _ := True

end

/-! ## What `writei` uses -/

def Inner : Act FileAct → Prop
  | .bscan _ => True
  | .bzero _ => True
  | .bread _ => True
  | .setWord _ _ _ => True
  | .put _ _ _ => True
  | .iupdate _ _ => True
  | .panic _ => True
  | _ => False

section

variable {sb : Sb}

theorem uses_panic {α : Type} (msg : String) : (panic msg : P (fileEnv T) α).Uses Inner :=
  ⟨trivial, fun b => b.elim⟩

theorem uses_ballocFrom (m n : ℕ) : (ballocFrom m n : P (fileEnv T) ℕ).Uses Inner := by
  induction n generalizing m with
  | zero => trivial
  | succ n ih =>
    refine ⟨trivial, fun r => ?_⟩
    cases r with
    | none => exact ih (m + 1)
    | some b => exact ⟨trivial, fun _ => trivial⟩

theorem uses_bmapIndirect (ip : Ip) (j : ℕ) : (bmapIndirect sb ip j : P (fileEnv T) _).Uses Inner := by
  refine ⟨trivial, fun a => ?_⟩
  show Prog.Uses Inner (if Block.word a j = 0 then _ else _)
  split
  · refine (uses_ballocFrom _ _).bind fun b => ?_
    split
    · trivial
    · exact ⟨trivial, fun _ => trivial⟩
  · trivial

theorem uses_bmap (ip : Ip) (bn : ℕ) : (bmap sb ip bn : P (fileEnv T) _).Uses Inner := by
  unfold bmap
  split
  · split
    · refine (uses_ballocFrom _ _).bind fun b => ?_
      split <;> trivial
    · trivial
  · split
    · split
      · refine (uses_ballocFrom _ _).bind fun b => ?_
        split
        · trivial
        · exact uses_bmapIndirect _ _
      · exact uses_bmapIndirect _ _
    · exact uses_panic _

theorem uses_writeiFrom {src : ℕ → Option UInt8} {n : ℕ} (fuel : ℕ) (ip : Ip) (tot off : ℕ) :
    (writeiFrom sb src ip tot off n fuel : P (fileEnv T) _).Uses Inner := by
  induction fuel generalizing ip tot off with
  | zero => trivial
  | succ fuel ih =>
    unfold writeiFrom
    split
    · refine (uses_bmap _ _).bind fun r => ?_
      obtain ⟨addr, ip⟩ := r
      dsimp only
      split
      · trivial
      · refine ⟨trivial, fun _ => ?_⟩
        dsimp only
        split
        · exact ih _ _ _
        · trivial
    · trivial

theorem uses_writei {src : ℕ → Option UInt8} (ip : Ip) (off n : ℕ) :
    (writei sb src ip off n : P (fileEnv T) _).Uses Inner := by
  unfold writei
  split
  · trivial
  · split
    · trivial
    · refine (uses_writeiFrom _ _ _ _).bind fun r => ?_
      exact ⟨trivial, fun _ => trivial⟩

end

/-! ## Pieces -/

/-- The pieces follow each other from `a` to `b`. -/
def Consecutive : ℕ → List Piece → ℕ → Prop
  | a, [], b => a = b
  | a, x :: l, b => x.off = a ∧ Consecutive (a + x.len) l b

theorem Consecutive.concat {a b : ℕ} {l : List Piece} (h : Consecutive a l b) {x : Piece}
    (hx : x.off = b) : Consecutive a (l ++ [x]) (b + x.len) := by
  induction l generalizing a with
  | nil =>
    obtain rfl := h
    exact ⟨hx, rfl⟩
  | cons y l ih => exact ⟨h.1, ih h.2⟩

theorem Consecutive.le {a b : ℕ} {l : List Piece} (h : Consecutive a l b) : a ≤ b := by
  induction l generalizing a with
  | nil => exact Nat.le_of_eq h
  | cons y l ih => exact (Nat.le_add_right _ _).trans (ih h.2)

theorem Consecutive.mem {a b : ℕ} {l : List Piece} (h : Consecutive a l b) {x : Piece} (hx : x ∈ l) :
    a ≤ x.off ∧ x.off + x.len ≤ b := by
  induction l generalizing a with
  | nil => exact absurd hx List.not_mem_nil
  | cons y l ih =>
    rcases List.mem_cons.1 hx with rfl | hx
    · rw [h.1]
      exact ⟨le_rfl, h.2.le⟩
    · obtain ⟨h1, h2⟩ := ih h.2 hx
      exact ⟨(Nat.le_add_right _ _).trans h1, h2⟩

theorem Consecutive.pairwise {a b : ℕ} {l : List Piece} (h : Consecutive a l b) :
    l.Pairwise fun x y => x.off + x.len ≤ y.off := by
  induction l generalizing a with
  | nil => exact .nil
  | cons x l ih =>
    refine List.pairwise_cons.2 ⟨fun y hy => ?_, ih h.2⟩
    rw [h.1]
    exact (h.2.mem hy).1

theorem Consecutive.sum {a b : ℕ} {l : List Piece} (h : Consecutive a l b) :
    b = a + (l.map Piece.len).sum := by
  induction l generalizing a with
  | nil => exact h.symm
  | cons x l ih => rw [ih h.2, List.map_cons, List.sum_cons, Nat.add_assoc]

/-- Byte `j` of the source of a call is in a piece. -/
def Covered (f : File) (call j : ℕ) : Prop :=
  ∃ x ∈ f.pieces, x.call = call ∧ x.i ≤ j ∧ j < x.i + x.len

/-- What the `struct file` says about the calls; `off` is where the first piece was written. -/
structure Hist (off : ℕ) (f : File) : Prop where
  chain : Consecutive off f.pieces f.off
  lt : f.off < 2 ^ 32
  call : ∀ x ∈ f.pieces, ∃ c, f.calls[x.call]? = some c ∧ x.src = c.src
  ret : ∀ call c, f.calls[call]? = some c → f.ret call = some c.n → ∀ j < c.n.toNat, Covered f call j
  fresh : ∀ call, f.calls.length ≤ call → f.ret call = none

theorem getElem?_concat_of_some {α : Type} {l : List α} {i : ℕ} {x y : α} (h : l[i]? = some x) :
    (l ++ [y])[i]? = some x := by
  rw [List.getElem?_append_left (List.getElem?_eq_some_iff.1 h).1, h]

theorem Hist.enter {off : ℕ} {f : File} (h : Hist off f) (c : Call) :
    Hist off { f with calls := f.calls ++ [c] } where
  chain := h.chain
  lt := h.lt
  call x hx := by
    obtain ⟨c', hc', hs⟩ := h.call x hx
    exact ⟨c', getElem?_concat_of_some hc', hs⟩
  ret call c' hc hr := by
    by_cases hlt : call < f.calls.length
    · rw [List.getElem?_append_left hlt] at hc
      exact h.ret call c' hc hr
    · have hnone : f.ret call = none := h.fresh call (not_lt.1 hlt)
      rw [show f.ret call = some c'.n from hr] at hnone
      exact nomatch hnone
  fresh call hle := by
    rw [List.length_append] at hle
    exact h.fresh call ((Nat.le_add_right _ _).trans hle)

theorem Hist.leave {off : ℕ} {f : File} (h : Hist off f) {call : ℕ} {c : Call} {r : ℤ}
    (hc : f.calls[call]? = some c) (hr : r = c.n → ∀ j < c.n.toNat, Covered f call j) :
    Hist off { f with ret := update f.ret call (some r) } where
  chain := h.chain
  lt := h.lt
  call := h.call
  ret call' c' hc' hr' := by
    by_cases he : call' = call
    · subst he
      obtain rfl : c = c' := Option.some.inj (hc.symm.trans hc')
      have hr' : update f.ret call' (some r) call' = some c.n := hr'
      rw [update_self] at hr'
      exact hr (Option.some.inj hr')
    · have hr' : update f.ret call (some r) call' = some c'.n := hr'
      rw [update_of_ne he] at hr'
      exact h.ret call' c' hc' hr'
  fresh call' hle := by
    have hlt := (List.getElem?_eq_some_iff.1 hc).1
    have hne : call' ≠ call := (hlt.trans_le hle).ne'
    show update f.ret call (some r) call' = none
    rw [update_of_ne hne]
    exact h.fresh call' hle

/-- The `struct file` after a piece of `r` bytes. -/
def File.advance (f : File) (call : ℕ) (src : ℕ → Option UInt8) (i r : ℕ) : File :=
  { f with off := (f.off + r) % 2 ^ 32, pieces := f.pieces ++ [⟨call, src, i, f.off, r⟩] }

theorem Covered.advance {f : File} {call j : ℕ} (h : Covered f call j) (call' : ℕ)
    (src : ℕ → Option UInt8) (i r : ℕ) : Covered (f.advance call' src i r) call j := by
  obtain ⟨x, hx, hc⟩ := h
  exact ⟨x, List.mem_append_left _ hx, hc⟩

theorem covered_advance {f : File} {call i r j : ℕ} {src : ℕ → Option UInt8} (h : i ≤ j)
    (h' : j < i + r) : Covered (f.advance call src i r) call j :=
  ⟨_, List.mem_append_right _ List.mem_cons_self, rfl, h, h'⟩

theorem Hist.advance {off : ℕ} {f : File} (h : Hist off f) {call : ℕ} {c : Call}
    (hc : f.calls[call]? = some c) (i : ℕ) {r : ℕ} (hr : f.off + r < 2 ^ 32) :
    Hist off (f.advance call c.src i r) where
  chain := by
    show Consecutive off (f.pieces ++ [_]) ((f.off + r) % 2 ^ 32)
    rw [Nat.mod_eq_of_lt hr]
    exact h.chain.concat rfl
  lt := Nat.mod_lt _ (by decide)
  call x hx := by
    rcases List.mem_append.1 hx with hx | hx
    · exact h.call x hx
    · rw [List.mem_singleton.1 hx]
      exact ⟨c, hc, rfl⟩
  ret call' c' hc' hr' j hj := (h.ret call' c' hc' hr' j hj).advance _ _ _ _
  fresh := h.fresh

/-! ## The invariant -/

/-- The state with other transactions and another `struct file`. -/
def graft (x : St T File) (op : T → ℤ) (f : File) : St T File := { x with op := op, tables := f }

/-- The file `i` on the disk has the pieces that were written. -/
structure Sane (sb : Sb) (i : ℕ) (x : St T File) : Prop where
  live : (x.din i).type ≠ .free
  wf : x.disk.Wf sb
  filled : x.disk.Filled i
  below : x.tables.pieces ≠ [] → x.tables.off ≤ (x.din i).size
  bytes : ∀ y ∈ x.tables.pieces, ∀ j < y.len, y.src (y.i + j) = some (x.disk.byte i (y.off + j))

/-- Where a thread is: in call `call`, of which `i` bytes have been written. -/
structure Pos where
  call : ℕ
  c : Call
  i : ℕ

/-- What a thread knows: the state, if it holds the lock of the inode, and where it is. -/
structure Ghost (T : Type) where
  own : Option (St T File)
  pos : Option Pos

/-- The invariant, for the inode `i` in entry `k` of the inode table. -/
structure Inv (sb : Sb) (k : SlotId) (i off : ℕ) (s : St T File) (G : T → Ghost T) : Prop where
  inum : (s.inode k).inum = i
  ref : 1 ≤ (s.inode k).ref
  hist : Hist off s.tables
  cached : (s.inode k).lock = none → (s.inode k).valid → (s.inode k).d = s.din i
  rest : (s.inode k).lock = none → Sane sb i s
  own : ∀ u x, (G u).own = some x → (s.inode k).lock = some u ∧ s = graft x s.op s.tables ∧
    s.tables.off = x.tables.off ∧ s.tables.pieces = x.tables.pieces
  pos : ∀ u p, (G u).pos = some p →
    s.tables.calls[p.call]? = some p.c ∧ ∀ j < p.i, Covered s.tables p.call j

section

variable {sb : Sb} {k : SlotId} {i off : ℕ} {s : St T File} {G : T → Ghost T} {t : T}

theorem Sane.congr {x y : St T File} (h : Sane sb i x) (hd : y.disk = x.disk)
    (ho : y.tables.off = x.tables.off) (hp : y.tables.pieces = x.tables.pieces) : Sane sb i y where
  live := by
    rw [show y.din = x.din from congrArg View.din hd]
    exact h.live
  wf := hd ▸ h.wf
  filled := hd ▸ h.filled
  below := by
    rw [hp, ho, show y.din = x.din from congrArg View.din hd]
    exact h.below
  bytes := by
    rw [hp, hd]
    exact h.bytes

theorem Inv.setOp (h : Inv sb k i off s G) (op : T → ℤ) : Inv sb k i off { s with op := op } G where
  inum := h.inum
  ref := h.ref
  hist := h.hist
  cached := h.cached
  rest hl := (h.rest hl).congr rfl rfl rfl
  own u x hx := by
    obtain ⟨h1, h2, h3, h4⟩ := h.own u x hx
    refine ⟨h1, ?_, h3, h4⟩
    rw [h2]
    rfl
  pos := h.pos

/-- Only one thread owns the state. -/
theorem Inv.own_unique (h : Inv sb k i off s G) {u : T} {x y : St T File} (ht : (G t).own = some x)
    (hu : (G u).own = some y) : u = t :=
  Option.some.inj ((h.own u y hu).1.symm.trans (h.own t x ht).1)

variable [DecidableEq T]

/-- What a thread that does not hold the lock does to the record of the calls. -/
theorem Inv.record (h : Inv sb k i off s G) {f : File} (ho : f.off = s.tables.off)
    (hp : f.pieces = s.tables.pieces) (hh : Hist off f) {g : Ghost T} (hg : (G t).own = none)
    (hg' : g.own = none)
    (hpos : ∀ p, g.pos = some p → f.calls[p.call]? = some p.c ∧ ∀ j < p.i, Covered f p.call j)
    (hcalls : ∀ (m : ℕ) c, s.tables.calls[m]? = some c → f.calls[m]? = some c) :
    Inv sb k i off { s with tables := f } (update G t g) where
  inum := h.inum
  ref := h.ref
  hist := hh
  cached := h.cached
  rest hl := (h.rest hl).congr rfl ho hp
  own u x hx := by
    by_cases hu : u = t
    · subst hu
      rw [update_self, hg'] at hx
      exact nomatch hx
    · rw [update_of_ne hu] at hx
      obtain ⟨h1, h2, h3, h4⟩ := h.own u x hx
      refine ⟨h1, ?_, ho.trans h3, hp.trans h4⟩
      rw [h2]
      rfl
  pos u p hup := by
    by_cases hu : u = t
    · subst hu
      rw [update_self] at hup
      exact hpos p hup
    · rw [update_of_ne hu] at hup
      obtain ⟨hc, hcov⟩ := h.pos u p hup
      refine ⟨hcalls _ _ hc, fun j hj => ?_⟩
      obtain ⟨x, hx, hc⟩ := hcov j hj
      exact ⟨x, hp ▸ hx, hc⟩

/-- What the thread that holds the lock does to the state that it owns. -/
theorem Inv.owned (h : Inv sb k i off s G) {x x' : St T File} (hx : (G t).own = some x)
    (hl : (x'.inode k).lock = (x.inode k).lock) (hi : (x'.inode k).inum = (x.inode k).inum)
    (hr : (x'.inode k).ref = (x.inode k).ref) {f : File} (ho : f.off = x'.tables.off)
    (hp : f.pieces = x'.tables.pieces) (hh : Hist off f) {g : Ghost T} (hg : g.own = some x')
    (hpos : ∀ p, g.pos = some p → f.calls[p.call]? = some p.c ∧ ∀ j < p.i, Covered f p.call j)
    (hcalls : f.calls = s.tables.calls) (hcov : ∀ m j, Covered s.tables m j → Covered f m j) :
    Inv sb k i off (graft x' s.op f) (update G t g) := by
  obtain ⟨h1, h2, -, -⟩ := h.own t x hx
  have hinode : s.inode = x.inode := by rw [h2]; rfl
  have hlock : (x'.inode k).lock = some t := by
    rw [hl, ← hinode, h1]
  have hne : ¬(x'.inode k).lock = none := by
    rw [hlock]
    exact Option.some_ne_none t
  constructor
  · show (x'.inode k).inum = i
    rw [hi, ← hinode, h.inum]
  · show 1 ≤ (x'.inode k).ref
    rw [hr, ← hinode]
    exact h.ref
  · exact hh
  · exact fun hn => absurd hn hne
  · exact fun hn => absurd hn hne
  · intro u y hy
    by_cases hu : u = t
    · subst hu
      rw [update_self, hg] at hy
      cases hy
      exact ⟨hlock, rfl, ho, hp⟩
    · rw [update_of_ne hu] at hy
      exact absurd (h.own_unique hx hy) hu
  · intro u p hup
    by_cases hu : u = t
    · subst hu
      rw [update_self] at hup
      exact hpos p hup
    · rw [update_of_ne hu] at hup
      obtain ⟨hc, hj⟩ := h.pos u p hup
      refine ⟨?_, fun j hlt => hcov _ _ (hj j hlt)⟩
      show f.calls[p.call]? = some p.c
      rw [hcalls]
      exact hc

/-! ## The actions -/

/-- The actions of `writei` do not depend on the other tables. -/
theorem exec_inner {a : Act FileAct} (ha : Inner a) {x x' : St T File} {b : a.Ret (fileEnv T)}
    (he : exec (V := fileEnv T) sb a t x = .done b x') (op : T → ℤ) (f : File) :
    exec (V := fileEnv T) sb a t (graft x op f) = .done b (graft x' op f) ∧
      x'.inode = x.inode ∧ x'.tables = x.tables := by
  cases a with
  | bscan m =>
    have he : execBscan (V := fileEnv T) sb t x m = .done b x' := he
    show execBscan (V := fileEnv T) sb t (graft x op f) m = .done b (graft x' op f) ∧ _
    have hfirst : (graft x op f).firstClear sb m = x.firstClear sb m := rfl
    unfold execBscan at he ⊢
    rw [hfirst]
    cases hc : x.firstClear sb m with
    | none =>
      rw [hc] at he
      cases he
      exact ⟨rfl, rfl, rfl⟩
    | some b' =>
      rw [hc] at he
      cases he
      exact ⟨rfl, rfl, rfl⟩
  | bzero b =>
    cases he
    exact ⟨rfl, rfl, rfl⟩
  | bread b =>
    cases he
    exact ⟨rfl, rfl, rfl⟩
  | setWord b j v =>
    cases he
    exact ⟨rfl, rfl, rfl⟩
  | put b o l =>
    cases he
    exact ⟨rfl, rfl, rfl⟩
  | iupdate j d =>
    cases he
    exact ⟨rfl, rfl, rfl⟩
  | panic msg => exact b.elim
  | _ => exact ha.elim

variable {writable : Bool} {α : Type} {g : Ghost T} {Q : α → Ghost T → Prop}

/-- `Ok` for the writers, which do not panic. -/
abbrev OkW (sb : Sb) (k : SlotId) (writable : Bool) (i off : ℕ) (t : T) (p : P (fileEnv T) α)
    (g : Ghost T) (Q : α → Ghost T → Prop) : Prop :=
  Ok (writers sb k writable) (Inv sb k i off) (fun _ => False) t p g Q

theorem ok_beginOp {q : Unit → P (fileEnv T) α} (h : OkW sb k writable i off t (q ()) g Q) :
    OkW sb k writable i off t (.act .beginOp q) g Q := by
  apply ok_done
  intro s G hI hg _
  refine ⟨(), _, rfl, g, ?_, h⟩
  rw [← hg, update_eq_self]
  exact hI.setOp _

theorem ok_endOp {q : Unit → P (fileEnv T) α} (h : OkW sb k writable i off t (q ()) g Q) :
    OkW sb k writable i off t (.act .endOp q) g Q := by
  apply ok_done
  intro s G hI hg _
  refine ⟨(), _, rfl, g, ?_, h⟩
  rw [← hg, update_eq_self]
  exact hI.setOp _

theorem ok_enter {c : Call} {q : ℕ → P (fileEnv T) α}
    (h : ∀ call, OkW sb k writable i off t (q call) ⟨none, some ⟨call, c, 0⟩⟩ Q) :
    OkW sb k writable i off t (.act (.ext (.enter c)) q) ⟨none, none⟩ Q := by
  apply ok_done
  intro s G hI hg _
  refine ⟨_, _, rfl, ⟨none, some ⟨_, c, 0⟩⟩, ?_, h _⟩
  refine hI.record (f := { s.tables with calls := s.tables.calls ++ [c] }) rfl rfl (hI.hist.enter c)
    (by rw [hg]) rfl ?_ fun m c' => getElem?_concat_of_some
  rintro p ⟨⟩
  exact ⟨List.getElem?_concat_length, fun j hj => absurd hj (Nat.not_lt_zero j)⟩

theorem ok_leave {p : Pos} {r : ℤ} (hr : r = p.c.n → ∀ j < p.c.n.toNat, j < p.i)
    {q : Unit → P (fileEnv T) α} (h : OkW sb k writable i off t (q ()) ⟨none, none⟩ Q) :
    OkW sb k writable i off t (.act (.ext (.leave p.call r)) q) ⟨none, some p⟩ Q := by
  apply ok_done
  intro s G hI hg _
  obtain ⟨hc, hcov⟩ := hI.pos t p (by rw [hg])
  refine ⟨(), _, rfl, ⟨none, none⟩, ?_, h⟩
  exact hI.record (f := { s.tables with ret := update s.tables.ret p.call (some r) }) rfl rfl
    (hI.hist.leave hc fun hrn j hj => hcov j (hr hrn j hj)) (by rw [hg]) rfl
    (fun p hp => nomatch hp) fun m c' => id

/-- What a thread knows that has locked the inode. -/
structure Locked (sb : Sb) (k : SlotId) (i off : ℕ) (t : T) (x : St T File) (ip : Ip) : Prop where
  slot : ip.slot = k
  inum : ip.inum = i
  d : ip.d = x.din i
  sane : Sane sb i x
  chain : Consecutive off x.tables.pieces x.tables.off
  lt : x.tables.off < 2 ^ 32

/-- The lock is taken. -/
theorem Inv.acquire (h : Inv sb k i off s G) (hl : (s.inode k).lock = none) {p : Option Pos}
    (hg : G t = ⟨none, p⟩) :
    Inv sb k i off (s.setInode k fun ip => { ip with lock := some t })
      (update G t ⟨some (s.setInode k fun ip => { ip with lock := some t }), p⟩) := by
  have hk : (s.setInode k fun ip => { ip with lock := some t }).inode k =
      { s.inode k with lock := some t } := setInode_self _
  have hne : ¬((s.setInode k fun ip => { ip with lock := some t }).inode k).lock = none := by
    rw [hk]
    exact Option.some_ne_none t
  constructor
  · rw [hk]
    exact h.inum
  · rw [hk]
    exact h.ref
  · exact h.hist
  · exact fun hn => absurd hn hne
  · exact fun hn => absurd hn hne
  · intro u x hx
    obtain ⟨rfl, ⟨⟩⟩ | ⟨-, hx⟩ := update_proj_cases Ghost.own hx
    · exact ⟨by rw [hk], rfl, rfl, rfl⟩
    · have := (h.own u x hx).1
      rw [hl] at this
      exact nomatch this
  · intro u q hq
    obtain ⟨rfl, hq⟩ | ⟨-, hq⟩ := update_proj_cases Ghost.pos hq
    · exact h.pos u q (by rw [hg]; exact hq)
    · exact h.pos u q hq

theorem ok_load {p : Option Pos} {x : St T File} (hi : (x.inode k).inum = i)
    (hc : (x.inode k).valid → (x.inode k).d = x.din i) (hs : Sane sb i x)
    (hchain : Consecutive off x.tables.pieces x.tables.off) (hlt : x.tables.off < 2 ^ 32)
    {q : ℕ × Dinode → P (fileEnv T) α}
    (h : ∀ y ip, Locked sb k i off t y ip →
      OkW sb k writable i off t (q (ip.inum, ip.d)) ⟨some y, p⟩ Q) :
    OkW sb k writable i off t (.act (.load k) q) ⟨some x, p⟩ Q := by
  apply ok_done
  intro s G hI hg _
  obtain ⟨hlock, he, ho, hp⟩ := hI.own t x (by rw [hg])
  have hpos := hI.pos t
  have hinode : s.inode = x.inode := by rw [he]; rfl
  have hdin : s.din = x.din := by rw [he]; rfl
  show ∃ b s', execLoad (V := fileEnv T) s k = .done b s' ∧ _
  unfold execLoad
  rw [hinode, hdin]
  by_cases hv : (x.inode k).valid = true
  · rw [if_pos hv]
    refine ⟨_, _, rfl, ⟨some x, p⟩, ?_, ?_⟩
    · rw [← hg, update_eq_self]
      exact hI
    · rw [hi]
      exact h x ⟨k, i, (x.inode k).d⟩ ⟨rfl, rfl, hc hv, hs, hchain, hlt⟩
  · rw [if_neg hv, if_neg (by rw [hi]; exact hs.live)]
    obtain ⟨y, hy⟩ : ∃ y, y = x.setInode k fun ip => { ip with valid := true, d := x.din ip.inum } :=
      ⟨_, rfl⟩
    have hk : y.inode k = { x.inode k with valid := true, d := x.din (x.inode k).inum } := by
      rw [hy]
      exact setInode_self _
    have hI' : Inv sb k i off (graft y s.op s.tables) (update G t ⟨some y, p⟩) :=
      hI.owned (x := x) (by rw [hg]) (by rw [hk]) (by rw [hk]) (by rw [hk]) (by rw [ho, hy]; rfl)
        (by rw [hp, hy]; rfl) hI.hist rfl (fun y hy => hpos y (by rw [hg]; exact hy)) rfl
        fun m j hm => hm
    have hs' : (s.setInode k fun ip => { ip with valid := true, d := x.din ip.inum }) =
        graft y s.op s.tables := by
      rw [he, hy]
      rfl
    refine ⟨_, _, rfl, ⟨some y, p⟩, ?_, ?_⟩
    · rw [hs']
      exact hI'
    · rw [hi]
      exact h y ⟨k, i, x.din i⟩ ⟨rfl, rfl, by rw [hy]; rfl, hs.congr (by rw [hy]; rfl)
        (by rw [hy]; rfl) (by rw [hy]; rfl), by rw [hy]; exact hchain, by rw [hy]; exact hlt⟩

theorem ok_ilock {p : Option Pos} {q : Ip → P (fileEnv T) α}
    (h : ∀ x ip, Locked sb k i off t x ip → OkW sb k writable i off t (q ip) ⟨some x, p⟩ Q) :
    OkW sb k writable i off t (ilock k >>= q) ⟨none, p⟩ Q := by
  show Ok _ _ _ t (.act (.acquire k) fun _ => .act (.load k) fun (r : ℕ × Dinode) =>
    q ⟨k, r.1, r.2⟩) _ Q
  intro s G hI hg _
  have hexec : (writers sb k writable).exec (.acquire k) t s = _ := if_neg (not_lt.2 hI.ref)
  rw [hexec]
  cases hl : (s.inode k).lock with
  | some u => exact ⟨by simp, by simp⟩
  | none =>
    refine ⟨by simp, fun b s' hb => ?_⟩
    cases hb
    obtain ⟨y, hy⟩ : ∃ y, y = s.setInode k fun ip => { ip with lock := some t } := ⟨_, rfl⟩
    have hI' := hI.acquire hl hg
    rw [← hy] at hI' ⊢
    have hk : y.inode k = { s.inode k with lock := some t } := by
      rw [hy]
      exact setInode_self _
    have hcached : (y.inode k).valid → (y.inode k).d = y.din i := by
      rw [hk, hy]
      exact hI.cached hl
    have hsane : Sane sb i y :=
      (hI.rest hl).congr (by rw [hy]; rfl) (by rw [hy]; rfl) (by rw [hy]; rfl)
    have hhist : Hist off y.tables := by
      rw [hy]
      exact hI.hist
    refine ⟨_, hI', ok_load (by rw [hk]; exact hI.inum) hcached hsane hhist.chain hhist.lt
      fun z ip hz => ?_⟩
    have := h z ip hz
    rwa [show ip = ⟨k, ip.inum, ip.d⟩ by rw [← hz.slot]] at this

theorem ok_getOff {p : Option Pos} {x : St T File} {q : ℕ → P (fileEnv T) α}
    (h : OkW sb k writable i off t (q x.tables.off) ⟨some x, p⟩ Q) :
    OkW sb k writable i off t (.act (.ext .getOff) q) ⟨some x, p⟩ Q := by
  apply ok_done
  intro s G hI hg _
  obtain ⟨-, -, ho, -⟩ := hI.own t x (by rw [hg])
  refine ⟨s.tables.off, s, rfl, ⟨some x, p⟩, ?_, ?_⟩
  · rw [← hg, update_eq_self]
    exact hI
  · rw [ho]
    exact h

structure After (sb : Sb) (k : SlotId) (i off : ℕ) (t : T) (src : ℕ → Option UInt8)
    (x y : St T File) (r : ℤ × Ip) : Prop where
  locked : Locked sb k i off t y r.2
  tables : y.tables = x.tables
  new : ∀ q < r.1.toNat, src q = some (y.disk.byte i (x.tables.off + q))
  size : 0 < r.1 → x.tables.off + r.1.toNat ≤ (y.din i).size

omit [DecidableEq T] in
theorem view_written {src : ℕ → Option UInt8} {o n tot : ℕ} {L L' : Finset ℕ} {ly : Layout}
    {x y : St T File} {ip ip' : Ip} (h : Written (V := fileEnv T) sb ly src o n x ip L tot ip' y L') :
    y.view ip' = y.disk := by
  apply view_eq_disk
  rw [h.din, h.inum, update_self]

omit [DecidableEq T] in
theorem after_written {src : ℕ → Option UInt8} {n tot : ℕ} {L L' : Finset ℕ} {ly : Layout}
    {x y : St T File} {ip ip' : Ip} (hl : Locked sb k i off t x ip)
    (h : Written (V := fileEnv T) sb ly src x.tables.off n x ip L tot ip' y L') :
    After sb k i off t src x y (tot, ip') := by
  have hview : x.view ip = x.disk := view_eq_disk (by rw [hl.inum]; exact hl.d)
  have hview' := view_written h
  have hdin : y.din i = ip'.d := by
    rw [h.din, hl.inum, update_self]
  have hsize : (y.din i).size = max (x.din i).size (x.tables.off + tot) := by
    rw [hdin, h.fields, hl.d]
  have hwf := h.wf
  have hfilled := h.filled
  have hnew := h.new
  obtain ⟨m, -, hold⟩ := h.old
  rw [hview'] at hwf hfilled hnew hold
  rw [hl.inum] at hfilled hnew hold
  rw [hview, hl.d] at hold
  have hsane : Sane sb i y := by
    refine ⟨?_, hwf, hfilled, fun hp => ?_, fun z hz j hj => ?_⟩
    · rw [hdin, h.fields, hl.d]
      exact hl.sane.live
    · rw [h.tables] at hp ⊢
      rw [hsize]
      exact (hl.sane.below hp).trans (le_max_left _ _)
    · rw [h.tables] at hz
      have hmem := (hl.chain.mem hz).2
      have hbelow := hl.sane.below (List.ne_nil_of_mem hz)
      rw [hold (z.off + j) (by omega) (.inl (by omega))]
      exact hl.sane.bytes z hz j hj
  refine ⟨⟨h.slot.trans hl.slot, h.inum.trans hl.inum, hdin.symm, hsane, ?_, ?_⟩, h.tables, hnew, ?_⟩
  · rw [h.tables]
    exact hl.chain
  · rw [h.tables]
    exact hl.lt
  · intro _
    rw [hsize]
    exact le_max_right _ _

omit [DecidableEq T] in
theorem after_rejected {src : ℕ → Option UInt8} {x : St T File} {ip : Ip}
    (hl : Locked sb k i off t x ip) : After sb k i off t src x x (-1, ip) where
  locked := hl
  tables := rfl
  new _ hq := absurd hq (Nat.not_lt_zero _)
  size h := absurd h (by decide : ¬(0 : ℤ) < -1)

/-- `writei` in a critical section does what it does alone. -/
theorem runs_writei {x : St T File} {ip : Ip} (hl : Locked sb k i off t x ip)
    (src : ℕ → Option UInt8) {n : ℕ} (hn : n < 2 ^ 32) :
    Runs (exec (V := fileEnv T) sb) t (fun _ => True) (writei sb src ip x.tables.off n) x
      fun r y => After sb k i off t src x y r := by
  have hview : x.view ip = x.disk := view_eq_disk (by rw [hl.inum]; exact hl.d)
  have hw : (x.view ip).Wf sb := hview ▸ hl.sane.wf
  have hf : (x.view ip).Filled ip.inum := by
    rw [hview, hl.inum]
    exact hl.sane.filled
  by_cases hok : x.tables.off ≤ ip.d.size ∧ x.tables.off + n ≤ maxFile * bsize
  · have hlive : ip.d.type ≠ .free := hl.d ▸ hl.sane.live
    have h : Does sb (⟨0, 0⟩ : Layout) t (writei sb src ip x.tables.off n : P (fileEnv T) _) x ∅ _ :=
      writei_does hw hlive hf hok.1 hok.2
    refine (Runs.forget h).mono ?_
    rintro r y ⟨L', tot, hr, hwr⟩
    have := after_written hl hwr
    rwa [← hr] at this
  · have hrej : ip.d.size < x.tables.off ∨ 2 ^ 32 ≤ x.tables.off + n ∨
        maxFile * bsize < x.tables.off + n := by omega
    have h : Does sb (⟨0, 0⟩ : Layout) t (writei sb src ip x.tables.off n : P (fileEnv T) _) x ∅ _ :=
      writei_rejects hl.lt hn hrej
    refine (Runs.forget h).mono ?_
    rintro r y ⟨L', rfl, rfl, -⟩
    exact after_rejected hl

theorem ok_writei {p : Option Pos} {x : St T File} {ip : Ip} (hl : Locked sb k i off t x ip)
    (src : ℕ → Option UInt8) {n : ℕ} (hn : n < 2 ^ 32) {q : ℤ × Ip → P (fileEnv T) α}
    (h : ∀ r y, After sb k i off t src x y r → OkW sb k writable i off t (q r) ⟨some y, p⟩ Q) :
    OkW sb k writable i off t (writei sb src ip x.tables.off n >>= q) ⟨some x, p⟩ Q := by
  have hown : ∀ a, Inner a → ∀ s G y, Inv sb k i off s G → G t = ⟨some y, p⟩ → ∀ b y',
      exec (V := fileEnv T) sb a t y = .done b y' → ∃ s', exec (V := fileEnv T) sb a t s = .done b s' ∧
        Inv sb k i off s' (update G t ⟨some y', p⟩) := by
    intro a ha s G y hI hg b y' he
    obtain ⟨-, hs, ho, hp⟩ := hI.own t y (by rw [hg])
    obtain ⟨hexec, hinode, htab⟩ := exec_inner ha he s.op s.tables
    refine ⟨graft y' s.op s.tables, hs ▸ hexec, ?_⟩
    refine hI.owned (by rw [hg]) (by rw [hinode]) (by rw [hinode]) (by rw [hinode])
      (by rw [htab]; exact ho) (by rw [htab]; exact hp) hI.hist rfl (fun z hz => ?_) rfl fun m j => id
    exact hI.pos t z (by rw [hg]; exact hz)
  have hw : OkW sb k writable i off t (writei sb src ip x.tables.off n) ⟨some x, p⟩ fun r g =>
      ∃ y, g = ⟨some y, p⟩ ∧ After sb k i off t src x y r :=
    ok_of_runs (fun y => (⟨some y, p⟩ : Ghost T)) hown (uses_writei ip x.tables.off n)
      (runs_writei hl src hn)
  refine ok_bind (ok_mono hw ?_)
  rintro r _ ⟨y, rfl, hy⟩
  exact h r y hy

omit [DecidableEq T] in
theorem Locked.advance {x : St T File} {ip : Ip} (h : Locked sb k i off t x ip) (call : ℕ)
    {src : ℕ → Option UInt8} {j n : ℕ}
    (hnew : ∀ q < n, src (j + q) = some (x.disk.byte i (x.tables.off + q)))
    (hsize : x.tables.off + n ≤ (x.din i).size) (hlt : x.tables.off + n < 2 ^ 32) :
    Locked sb k i off t { x with tables := x.tables.advance call src j n } ip := by
  refine ⟨h.slot, h.inum, h.d, ⟨h.sane.live, h.sane.wf, h.sane.filled, fun _ => ?_, ?_⟩, ?_,
    Nat.mod_lt _ (by decide)⟩
  · exact (Nat.mod_le _ _).trans hsize
  · intro y hy
    rcases List.mem_append.1 hy with hy | hy
    · exact h.sane.bytes y hy
    · rw [List.mem_singleton.1 hy]
      exact hnew
  · show Consecutive off (x.tables.pieces ++ [_]) ((x.tables.off + n) % 2 ^ 32)
    rw [Nat.mod_eq_of_lt hlt]
    exact h.chain.concat rfl

/-- The offset is advanced, and the piece is recorded. -/
theorem ok_advance {x y : St T File} {p : Pos} {j : ℕ} {r : ℤ × Ip} (hj : j ≤ p.i)
    (hy : After sb k i off t (fun q => p.c.src (j + q)) x y r) {q : Unit → P (fileEnv T) α}
    (h : ∀ z p', Locked sb k i off t z r.2 → p'.call = p.call → p'.c = p.c → p.i ≤ p'.i →
      j + r.1.toNat ≤ p'.i → OkW sb k writable i off t (q ()) ⟨some z, some p'⟩ Q) :
    OkW sb k writable i off t (advance p.call p.c.src j r.1 >>= q) ⟨some y, some p⟩ Q := by
  unfold advance
  by_cases hr : 0 < r.1
  · rw [if_pos hr]
    apply ok_done
    intro s G hI hg _
    obtain ⟨-, hs, ho, hp⟩ := hI.own t y (by rw [hg])
    obtain ⟨hc, hcov⟩ := hI.pos t p (by rw [hg])
    have hoff : y.tables.off = x.tables.off := by rw [hy.tables]
    have hsize := hy.size hr
    rw [← hoff] at hsize
    have hmax : (y.din i).size ≤ maxFile * bsize := hy.locked.sane.filled.size_le
    have hlt : y.tables.off + r.1.toNat < 2 ^ 32 :=
      (hsize.trans hmax).trans_lt (by decide)
    have hnew : ∀ q < r.1.toNat, p.c.src (j + q) = some (y.disk.byte i (y.tables.off + q)) := by
      rw [hoff]
      exact hy.new
    have hz := hy.locked.advance p.call hnew hsize hlt
    obtain ⟨z, he⟩ : ∃ z, z = { y with tables := y.tables.advance p.call p.c.src j r.1.toNat } :=
      ⟨_, rfl⟩
    rw [← he] at hz
    refine ⟨(), { s with tables := s.tables.advance p.call p.c.src j r.1.toNat }, rfl,
      ⟨some z, some { p with i := max p.i (j + r.1.toNat) }⟩, ?_,
      h _ _ hz rfl rfl (le_max_left _ _) (le_max_right _ _)⟩
    have hgraft : { s with tables := s.tables.advance p.call p.c.src j r.1.toNat } =
        graft z s.op (s.tables.advance p.call p.c.src j r.1.toNat) := by
      conv_lhs => rw [hs]
      rw [he]
      rfl
    rw [hgraft]
    refine hI.owned (x := y) (by rw [hg]) (by rw [he]) (by rw [he]) (by rw [he]) ?_ ?_
      (hI.hist.advance hc j (ho ▸ hlt)) rfl ?_ rfl fun m l hm => hm.advance _ _ _ _
    · rw [he]
      show (s.tables.off + r.1.toNat) % 2 ^ 32 = (y.tables.off + r.1.toNat) % 2 ^ 32
      rw [ho]
    · rw [he]
      show s.tables.pieces ++ [⟨p.call, p.c.src, j, s.tables.off, r.1.toNat⟩] =
        y.tables.pieces ++ [⟨p.call, p.c.src, j, y.tables.off, r.1.toNat⟩]
      rw [ho, hp]
    · rintro z ⟨⟩
      refine ⟨hc, fun l hlt => ?_⟩
      by_cases hlp : l < p.i
      · exact (hcov l hlp).advance _ _ _ _
      · have hlt : l < max p.i (j + r.1.toNat) := hlt
        exact covered_advance (by omega) (by omega)
  · rw [if_neg hr]
    refine h y p hy.locked rfl rfl le_rfl ?_
    omega

theorem ok_iunlock {p : Option Pos} {x : St T File} {ip : Ip} (hl : Locked sb k i off t x ip)
    {q : Unit → P (fileEnv T) α} (h : OkW sb k writable i off t (q ()) ⟨none, p⟩ Q) :
    OkW sb k writable i off t (.act (.iunlock ip.slot ip.d) q) ⟨some x, p⟩ Q := by
  apply ok_done
  intro s G hI hg _
  obtain ⟨hlock, hs, ho, hp⟩ := hI.own t x (by rw [hg])
  have hexec : exec (V := fileEnv T) sb (.iunlock ip.slot ip.d) t s =
      .done () (s.setInode k fun e => { e with d := ip.d, lock := none }) := by
    rw [hl.slot]
    exact if_neg (not_or.2 ⟨not_not.2 hlock, not_lt.2 hI.ref⟩)
  refine ⟨(), _, hexec, ⟨none, p⟩, ?_, h⟩
  have hk : (s.setInode k fun e => { e with d := ip.d, lock := none }).inode k =
      { s.inode k with d := ip.d, lock := none } := setInode_self _
  have hdisk : s.disk = x.disk := by
    rw [hs]
    rfl
  constructor
  · rw [hk]
    exact hI.inum
  · rw [hk]
    exact hI.ref
  · exact hI.hist
  · intro _ _
    rw [hk]
    show ip.d = s.din i
    rw [hl.d, show s.din = x.din from congrArg View.din hdisk]
  · exact fun _ => hl.sane.congr hdisk ho hp
  · intro u y hy
    obtain ⟨-, ⟨⟩⟩ | ⟨hu, hy⟩ := update_proj_cases Ghost.own hy
    exact absurd (hI.own_unique (by rw [hg]) hy) hu
  · intro u z hz
    by_cases hu : u = t
    · subst hu
      rw [update_self] at hz
      exact hI.pos u z (by rw [hg]; exact hz)
    · rw [update_of_ne hu] at hz
      exact hI.pos u z hz

/-! ## The calls -/

theorem ok_writePiece {p : Pos} {j n : ℕ} (hj : j ≤ p.i) (hn : n < 2 ^ 32) :
    OkW sb k writable i off t (writePiece sb k p.call p.c.src j n) ⟨none, some p⟩ fun r g =>
      ∃ p', g = ⟨none, some p'⟩ ∧ p'.call = p.call ∧ p'.c = p.c ∧ p.i ≤ p'.i ∧ j + r.toNat ≤ p'.i := by
  refine ok_beginOp (ok_ilock fun x ip hl => ok_getOff ?_)
  refine ok_writei hl (fun q => p.c.src (j + q)) hn fun r y hy => ?_
  refine ok_advance hj hy fun z p' hz h1 h2 h3 h4 => ?_
  exact ok_iunlock hz (ok_endOp ⟨p', rfl, h1, h2, h3, h4⟩)

theorem ok_writeLoop (n fuel : ℕ) {p : Pos} {j : ℕ} (hj : j ≤ p.i) :
    OkW sb k writable i off t (writeLoop sb k p.call p.c.src n j fuel) ⟨none, some p⟩ fun j' g =>
      ∃ p', g = ⟨none, some p'⟩ ∧ p'.call = p.call ∧ p'.c = p.c ∧ j' ≤ p'.i := by
  induction fuel generalizing p j with
  | zero => exact ⟨p, rfl, rfl, rfl, hj⟩
  | succ fuel ih =>
    unfold writeLoop
    split
    · have hmax : min (n - j) maxWrite < 2 ^ 32 := (min_le_right _ _).trans_lt (by decide)
      refine ok_bind (ok_mono (ok_writePiece hj hmax) ?_)
      rintro r _ ⟨p', rfl, hc, hcall, hle, hr⟩
      split
      · exact ⟨p', rfl, hc, hcall, hj.trans hle⟩
      · next heq =>
        have hr' : j + min (n - j) maxWrite ≤ p'.i := by
          rw [not_not.1 heq] at hr
          exact hr
        rw [← hc, ← hcall]
        exact ih hr'
    · exact ⟨p, rfl, rfl, rfl, hj⟩

theorem ok_filewrite (c : Call) :
    OkW sb k writable i off t (filewrite sb k writable c) ⟨none, none⟩ fun _ g => g = ⟨none, none⟩ := by
  refine ok_enter fun call => ?_
  show OkW sb k writable i off t (if writable = false then onFile (.leave call (-1)) else
    writeLoop sb k call c.src c.n.toNat 0 c.n.toNat >>= fun j =>
      onFile (.leave call (if (j : ℤ) = c.n then c.n else -1))) _ _
  have hneg {m : ℕ} (hn : (-1 : ℤ) = c.n) : ∀ j < c.n.toNat, j < m := by
    intro j hj
    rw [← hn] at hj
    exact absurd hj (Nat.not_lt_zero j)
  split
  · exact ok_leave (p := ⟨call, c, 0⟩) hneg rfl
  · refine ok_bind (ok_mono (ok_writeLoop (p := ⟨call, c, 0⟩) c.n.toNat c.n.toNat le_rfl) ?_)
    rintro j _ ⟨⟨call', c', m⟩, rfl, rfl, rfl, hj⟩
    have hj : j ≤ m := hj
    refine ok_leave (p := ⟨call', c', m⟩) (fun hr l hl => ?_) rfl
    have hl : l < c'.n.toNat := hl
    split at hr
    · show l < m
      omega
    · exact hneg hr l hl

/-- The `struct file` has just been opened on a regular file in entry `k` of the inode table. Its
offset may be anywhere. -/
structure Start (sb : Sb) (k : SlotId) (s : St T File) : Prop where
  ref : 1 ≤ (s.inode k).ref
  lock : (s.inode k).lock = none
  cached : (s.inode k).valid → (s.inode k).d = s.din (s.inode k).inum
  type : (s.din (s.inode k).inum).type = .file
  wf : s.disk.Wf sb
  filled : s.disk.Filled (s.inode k).inum
  off : s.tables.off < 2 ^ 32
  calls : s.tables.calls = []
  ret : s.tables.ret = fun _ => none
  pieces : s.tables.pieces = []

omit [DecidableEq T] in
theorem Start.inv (h : Start sb k s) :
    Inv sb k (s.inode k).inum s.tables.off s fun _ => ⟨none, none⟩ where
  inum := rfl
  ref := h.ref
  hist := by
    refine ⟨?_, h.off, ?_, ?_, fun call _ => by rw [h.ret]⟩
    · rw [h.pieces]
      exact rfl
    · rw [h.pieces]
      exact fun x hx => nomatch hx
    · rw [h.calls]
      exact fun call c hc => nomatch hc
  cached _ := h.cached
  rest _ := by
    refine ⟨by rw [h.type]; decide, h.wf, h.filled, fun hp => absurd h.pieces hp, ?_⟩
    rw [h.pieces]
    exact fun x hx => nomatch hx
  own u x hx := nomatch hx
  pos u p hp := nomatch hp

theorem good_of_reach (h : Start sb k s) {c : Conf T (Act FileAct) (Act.Ret (fileEnv T)) (St T File)}
    (hr : Reach (writers sb k writable) (idle s) c) :
    Good (writers sb k writable) (Inv sb k (s.inode k).inum s.tables.off) (fun _ => False)
      (fun g => g = ⟨none, none⟩) c := by
  have h0 : Good (writers sb k writable) (Inv sb k (s.inode k).inum s.tables.off) (fun _ => False)
      (fun g => g = ⟨none, none⟩) (idle s) := ⟨_, h.inv, fun _ => rfl⟩
  refine reach_ok ?_ h0 hr
  rintro s' G t c hI hg -
  refine ⟨⟨none, none⟩, ?_, ok_filewrite c⟩
  rw [← hg, update_eq_self]
  exact hI

end

/-- Whatever the threads that share the `struct file` write, in every state of every run: nobody has
panicked; the pieces follow each other from the first offset to the present one, in the order of the
critical sections; while nobody holds the lock of the inode, each piece is in the file and holds the
bytes of its call; and a call that has returned `n` has stored all its bytes. -/
theorem shared_writers_disjoint [DecidableEq T] (sb : Sb) (k : SlotId) (writable : Bool)
    (s : St T File) (h : Start sb k s)
    (c : Conf T (Act FileAct) (Act.Ret (fileEnv T)) (St T File))
    (hr : Reach (writers sb k writable) (idle s) c) :
    c.msg = none ∧
    Consecutive s.tables.off c.state.tables.pieces c.state.tables.off ∧
    c.state.tables.pieces.Pairwise (fun x y => x.off + x.len ≤ y.off) ∧
    c.state.tables.off = s.tables.off + (c.state.tables.pieces.map Piece.len).sum ∧
    ((c.state.inode k).lock = none → ∀ x ∈ c.state.tables.pieces,
      x.off + x.len ≤ (c.state.din (s.inode k).inum).size ∧
      ∃ a, c.state.tables.calls[x.call]? = some a ∧
        ∀ j < x.len, a.src (x.i + j) = some (c.state.disk.byte (s.inode k).inum (x.off + j))) ∧
    ∀ m a, c.state.tables.calls[m]? = some a → c.state.tables.ret m = some a.n →
      ∀ j < a.n.toNat, ∃ x ∈ c.state.tables.pieces, x.call = m ∧ x.i ≤ j ∧ j < x.i + x.len := by
  have hg := good_of_reach h hr
  have hmsg : c.msg = none := by
    cases c with
    | live s thr => rfl
    | dead m s => exact hg.1.elim
  obtain ⟨G, hI⟩ := hg.inv
  have hchain := hI.hist.chain
  refine ⟨hmsg, hchain, hchain.pairwise, hchain.sum, fun hl x hx => ?_, hI.hist.ret⟩
  have hsane := hI.rest hl
  refine ⟨((hchain.mem hx).2).trans (hsane.below (List.ne_nil_of_mem hx)), ?_⟩
  obtain ⟨a, ha, hsrc⟩ := hI.hist.call x hx
  refine ⟨a, ha, fun j hj => ?_⟩
  rw [← hsrc]
  exact hsane.bytes x hx j hj

/-- A file of three bytes that two threads have open, with the offset at its end. -/
def sharedFile : St Bool File where
  bit := oneFile.bit
  blk := oneFile.blk
  din := oneFile.din
  inode _ := ⟨1, 1, none, false, .fresh .free⟩
  op _ := 0
  reading _ := false
  readAlloc := false
  tables := ⟨3, [], fun _ => none, []⟩

theorem sharedFile_start : Start smallDisk ⟨0, by decide⟩ sharedFile where
  ref := le_rfl
  lock := rfl
  cached h := nomatch h
  type := rfl
  wf := by
    have h : (oneFile.view theFile).Wf smallDisk := oneInode_wf
    rwa [view_eq_disk rfl] at h
  filled := by
    have h : (oneFile.view theFile).Filled 1 := oneInode_filled (by decide)
    rwa [view_eq_disk rfl] at h
  off := by decide
  calls := rfl
  ret := rfl
  pieces := rfl

instance (sb : Sb) (k : SlotId) (writable : Bool) (c : Call) (t : Bool) (s : St Bool File) :
    Decidable ((writers sb k writable).may c t s) :=
  inferInstanceAs (Decidable True)

instance (sb : Sb) (k : SlotId) (writable : Bool) (a : Act FileAct) (t : Bool) (s : St Bool File) :
    Decidable ((writers sb k writable).cond a t s) :=
  inferInstanceAs (Decidable True)

/-- Two threads call `filewrite` to write two bytes each, and both begin their transactions before
one of them gets the lock. -/
def twoWrites : List (Bool × Option Call) :=
  [(true, some ⟨2, fun _ => some 7⟩), (false, some ⟨2, fun _ => some 8⟩),
    (true, none), (false, none), (true, none), (false, none)] ++
    List.replicate 9 (true, none) ++ List.replicate 9 (false, none)

theorem shared_writers_disjoint_two : ∃ c,
    Reach (writers smallDisk ⟨0, by decide⟩ true) (idle sharedFile) c ∧
    c.state.tables.off = 7 ∧ c.state.tables.ret 0 = some 2 ∧ c.state.tables.ret 1 = some 2 ∧
    ∀ x ∈ c.state.tables.pieces, ∃ a, c.state.tables.calls[x.call]? = some a ∧
      ∀ j < x.len, a.src (x.i + j) = some (c.state.disk.byte 1 (x.off + j)) := by
  have hrun : ((run (writers smallDisk ⟨0, by decide⟩ true) twoWrites (idle sharedFile)).any fun c =>
      c.state.tables.off == 7 && c.state.tables.ret 0 == some 2 && c.state.tables.ret 1 == some 2 &&
        (c.state.inode ⟨0, by decide⟩).lock == none) = true := by decide
  cases hc : run (writers smallDisk ⟨0, by decide⟩ true) twoWrites (idle sharedFile) with
  | none =>
    rw [hc] at hrun
    exact nomatch hrun
  | some c =>
    rw [hc, Option.any_some] at hrun
    simp only [Bool.and_eq_true, beq_iff_eq] at hrun
    obtain ⟨⟨⟨hoff, h0⟩, h1⟩, hl⟩ := hrun
    have hr := reach_of_run hc
    obtain ⟨-, -, -, -, hb, -⟩ := shared_writers_disjoint _ _ _ _ sharedFile_start c hr
    exact ⟨c, hr, hoff, h0, h1, fun x hx => (hb hl x hx).2⟩

end Xv6.Fs.Shared
