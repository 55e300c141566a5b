import Xv6.Virtio.Model
import Xv6.Holdings

/-!
# The invariant of the virtio driver

Four parts, each about some fields of the state. `Descs`: a descriptor is in use exactly if it is in
the chain of one request or in the hands of the thread that holds the lock. `Rings`: the entries of
the two rings and the device's work list are the requests of a stage, without repetition. `Bufs`:
`info` and the disk flag agree with the request. `Pcs`: where the threads of the requests are.
-/

namespace Xv6.Virtio

open Function Xv6.Threads

variable {T B : Type}

/-! ## Lists of the indices with a property -/

/-- `l` lists, once each, the indices whose value under `f` has `S`. -/
structure Listed {α : Type} (l : List ℕ) (S : α → Prop) (f : ℕ → α) : Prop where
  nodup : l.Nodup
  mem : ∀ i, i ∈ l ↔ S (f i)

section
variable {α : Type} {l l' : List ℕ} {S : α → Prop} {f : ℕ → α} {i : ℕ} {x : α}

theorem listed_nil (h : ∀ i, ¬ S (f i)) : Listed [] S f :=
  ⟨List.nodup_nil, fun i => iff_of_false List.not_mem_nil (h i)⟩

theorem Listed.keep (h : Listed l S f) (hS : S x ↔ S (f i)) : Listed l S (update f i x) := by
  refine ⟨h.nodup, fun k => ?_⟩
  by_cases hk : k = i
  · rw [hk, update_self, h.mem, hS]
  · rw [update_of_ne hk, h.mem]

theorem Listed.add (h : Listed l S f) (hold : ¬ S (f i)) (hnew : S x) (hl : l'.Perm (i :: l)) :
    Listed l' S (update f i x) := by
  have hi : i ∉ l := fun hm => hold ((h.mem i).1 hm)
  refine ⟨hl.nodup_iff.2 (List.nodup_cons.2 ⟨hi, h.nodup⟩), fun k => ?_⟩
  rw [hl.mem_iff, List.mem_cons]
  by_cases hk : k = i
  · rw [hk, update_self]
    exact iff_of_true (Or.inl rfl) hnew
  · rw [update_of_ne hk, h.mem]
    exact or_iff_right hk

theorem Listed.remove (h : Listed l S f) (hnew : ¬ S x) (hl : l.Perm (i :: l')) :
    Listed l' S (update f i x) := by
  obtain ⟨hi, hnd⟩ := List.nodup_cons.1 (hl.nodup_iff.1 h.nodup)
  refine ⟨hnd, fun k => ?_⟩
  by_cases hk : k = i
  · rw [hk, update_self]
    exact iff_of_false hi hnew
  · rw [update_of_ne hk, ← h.mem, hl.mem_iff, List.mem_cons]
    exact (or_iff_right hk).symm

/-- A list of numbers below `n` without repetition that leaves one out is shorter than `n`. -/
theorem Listed.length_lt {n : ℕ} (h : Listed l S f) (hn : ∀ k, S (f k) → k < n) (hi : i < n)
    (hout : ¬ S (f i)) : l.length < n := by
  have hnd : (i :: l).Nodup := List.nodup_cons.2 ⟨fun hm => hout ((h.mem i).1 hm), h.nodup⟩
  have hsub : i :: l ⊆ List.range n := by
    intro k hk
    rw [List.mem_range]
    rcases List.mem_cons.1 hk with rfl | hk
    · exact hi
    · exact hn k ((h.mem k).1 hk)
  have := (hnd.subperm hsub).length_le
  rw [List.length_range, List.length_cons] at this
  omega

end

/-! ## What the state says -/

namespace Pc

/-- The thread holds the lock. -/
def inside : Pc B → Bool
  | .alloc .. | .undo .. | .ring .. | .publish .. | .test .. | .chain .. | .leave _ | .intr => true
  | _ => false

/-- The descriptors that the thread has allocated or is freeing. -/
def descs : Pc B → List ℕ
  | .alloc _ _ idx | .undo _ _ idx => idx
  | .chain _ i rest => i :: rest
  | _ => []

/-- The buffer that the thread works on. -/
def buf : Pc B → Option B
  | .enter b _ | .alloc b _ _ | .undo b _ _ | .noDesc b _ | .ring b _ | .publish b _ | .test b _
  | .wait b _ | .chain b _ _ | .leave b => some b
  | .idle | .intrEnter | .intr => none

/-- The head of the thread's request. -/
def head : Pc B → Option ℕ
  | .ring _ h | .publish _ h | .test _ h | .wait _ h => some h
  | _ => none

/-- The thread is in `alloc3_desc`. -/
def allocating : Pc B → Bool
  | .alloc .. | .undo .. => true
  | _ => false

theorem inside_of_allocating {p : Pc B} (h : p.allocating) : p.inside := by
  cases p <;> first | rfl | cases h

end Pc

/-- The request is published. -/
def Stage.out : Stage → Prop
  | .filled | .ringed => False
  | _ => True

/-- The stage that the request of a thread at `p` may have. -/
def Pc.allows : Pc B → Stage → Prop
  | .ring .. , st => st = .filled
  | .publish .., st => st = .ringed
  | .test .., st | .wait .., st => st.out
  | _, _ => False

theorem Pc.head_of_allows {p : Pc B} {st : Stage} (h : p.allows st) : p.head ≠ none := by
  cases p <;> first | exact Option.some_ne_none _ | exact h.elim

/-- The chain of a request with head `h`. -/
def Req.descs (h : ℕ) (r : Req T B) : Multiset ℕ := ↑[h, r.c1, r.c2]

/-- The descriptors are linked in the order of the list. -/
def Linked (desc : ℕ → Desc B) : List ℕ → Prop
  | [] => True
  | [i] => (desc i).hasNext = false
  | i :: j :: l => (desc i).hasNext = true ∧ (desc i).next = j ∧ Linked desc (j :: l)

/-- Descriptors that leave the lists alone. -/
theorem Linked.congr {desc desc' : ℕ → Desc B} : ∀ {l : List ℕ}, Linked desc l →
    (∀ i ∈ l, desc' i = desc i) → Linked desc' l
  | [], _, _ => trivial
  | [i], h, he => by
    unfold Linked at h ⊢
    rw [he i (by simp)]
    exact h
  | i :: j :: l, h, he => by
    unfold Linked at h ⊢
    rw [he i (by simp)]
    exact ⟨h.1, h.2.1, h.2.2.congr fun k hk => he k (List.mem_cons_of_mem i hk)⟩

/-- The requests for which `virtio_disk_intr` or the device has something to do. -/
def inWork (o : Option Stage) : Prop := o = some .taken ∨ o = some .done ∨ o = some .posted

/-- The heads whose status is written and that are not in the used ring. -/
def DevPc.done : DevPc → List ℕ
  | .put h => [h]
  | _ => []

/-- The heads that are in the used ring and not counted. -/
def DevPc.posted : DevPc → List ℕ
  | .inc h => [h]
  | _ => []

namespace St

variable (s : St T B)

def stage (h : ℕ) : Option Stage := (s.req h).map Req.stage

/-- The descriptors of the requests in flight. -/
def chains : Multiset ℕ := ∑ h ∈ Finset.range num, (s.req h).elim 0 (Req.descs h)

/-- The descriptors of an `alloc3_desc` or a `free_chain` in progress. -/
def part : Multiset ℕ := s.lock.elim 0 fun t => ((s.pc t).descs : Multiset ℕ)

def busy : Multiset ℕ := s.chains + s.part

/-- The entries of the avail ring that the device has not taken. -/
def availItems : List ℕ := Ring.items num s.availRing s.seenAvail s.availIdx

/-- The entries of the used ring that the driver has not seen. -/
def usedItems : List ℕ := Ring.items num s.usedRing s.seenUsed s.usedIdx

end St

/-- The chain of request `r` as `virtio_disk_rw` formatted it. -/
structure Chain (s : St T B) (h : ℕ) (r : Req T B) : Prop where
  op : (s.desc h).addr = .op h
  data : (s.desc r.c1).addr = .data r.b
  status : (s.desc r.c2).addr = .status h
  linked : Linked s.desc [h, r.c1, r.c2]

structure Descs (s : St T B) : Prop where
  heads : ∀ h, num ≤ h → s.req h = none
  nodup : s.busy.Nodup
  lt : ∀ i ∈ s.busy, i < num
  free : ∀ i, s.free i ↔ i < num ∧ i ∉ s.busy
  chain : ∀ h r, s.req h = some r → Chain s h r
  rest : ∀ t b i rest, s.pc t = .chain b i rest → Linked s.desc (i :: rest)

structure Rings (s : St T B) : Prop where
  avail : Listed s.availItems (· = some .published) s.stage
  work : Listed s.work inWork s.stage
  done : Listed s.dev.done (· = some .done) s.stage
  posted : Listed s.dev.posted (· = some .posted) s.stage
  used : Listed s.usedItems (· = some .used) s.stage
  slot : ∀ h, s.dev = .inc h → s.usedRing (Ring.slot num s.usedIdx) = h

structure Bufs (s : St T B) : Prop where
  info : ∀ h r, s.req h = some r →
    s.info h = ⟨some r.b, if r.stage.finished then 0 else 0xff⟩
  disk : ∀ h r, s.req h = some r → s.disk r.b = decide (r.stage ≠ .handled)
  cleared : ∀ h r, s.req h = some r → r.cleared = if r.stage = .handled then 1 else 0

structure Pcs (s : St T B) : Prop where
  held : ∀ t, (s.pc t).inside ↔ s.lock = some t
  own : ∀ t b, (s.pc t).buf = some b → s.owner b = some t
  req : ∀ h r, s.req h = some r →
    (s.pc r.t).head = some h ∧ (s.pc r.t).buf = some r.b ∧ (s.pc r.t).allows r.stage
  head : ∀ t h, (s.pc t).head = some h → ∃ r, s.req h = some r ∧ r.t = t
  ringed : ∀ t b h, s.pc t = .publish b h → s.availRing (Ring.slot num s.availIdx) = h

structure Inv (s : St T B) : Prop where
  descs : Descs s
  rings : Rings s
  bufs : Bufs s
  pcs : Pcs s

end Xv6.Virtio
