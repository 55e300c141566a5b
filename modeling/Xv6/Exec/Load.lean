import Xv6.Exec.Model
import Xv6.Vm.Image

/-!
# The image of a file

Loading a program fills zeroed memory with the file parts of its segments, one after the other. No
program header makes `loadseg` or the functions on page tables panic.
-/

namespace Xv6.Exec

open Fs (readResult)
open Vm
open Vm.Image (Building)

variable {T : Type} [DecidableEq T] {L : Layout} {p : Proc} {r sz : ℕ} {s s' s₀ : Vm.St T}
  {file : List UInt8}

/-! ## The contents of a segment -/

theorem readResult_full {off n : ℕ} (hn : 0 < n) (h : (readResult file off n).length = n) :
    off + n ≤ file.length ∧ readResult file off n = (file.drop off).take n := by
  unfold readResult at *
  split_ifs at * with hc
  · rw [List.length_take, List.length_drop] at h
    exact ⟨by omega, rfl⟩
  · rw [List.length_nil] at h
    omega

theorem length_readResult_le (file : List UInt8) (off n : ℕ) : (readResult file off n).length ≤ n := by
  unfold readResult
  split_ifs
  · exact List.length_take_le _ _
  · exact Nat.zero_le _

/-- What `loadseg` leaves: memory from `a` on holds `m` bytes of the file from `off` on. -/
structure Loaded (file : List UInt8) (q : Proc) (a off m : ℕ) (s₀ s s' : Vm.St T) (ok : Bool) : Prop
    extends MemOnly s s' where
  unwritten : Unwritten s₀ s → Unwritten s₀ s'
  inside : ok → m = 0 ∨ off + m ≤ file.length
  byte : ok → (umem s' q).byte = Cells.put (umem s q).byte a ((file.drop off).take m)

theorem loadsegLoop_exact (w off m : ℕ) (hf : FreeOk L s₀) (hc : file.length < 2 ^ 32) (n : ℕ) :
    ∀ {s : Vm.St T} {k : ℕ}, Building L p r sz s₀ s → AllUser (s.tbl r) sz →
    w + k + n ≤ npages sz → n = (m - k * pgsize + pgsize - 1) / pgsize →
    (0 < n → off + k * pgsize < 2 ^ 32) →
    Tot (loadsegLoop file r (w * pgsize) off m n (k * pgsize)) s fun ok s' =>
      Loaded file (Image.as p r sz) ((w + k) * pgsize) (off + k * pgsize) (m - k * pgsize) s₀ s s' ok := by
  induction n with
  | zero =>
    intro s k _ _ _ hn _
    have hm : m - k * pgsize = 0 := by
      unfold pgsize at *
      omega
    refine tot_pure ⟨.refl s, id, fun _ => .inl hm, fun _ => ?_⟩
    rw [hm, List.take_zero, Cells.put_nil]
  | succ n ih =>
    intro s k h hu hlt hn hoff
    obtain ⟨e, he, hwalk, hne⟩ := h.walkaddr_page hf hu (w := w) (k := k) (by omega)
    unfold loadsegLoop
    apply tot_bind_eq hwalk
    rw [if_neg hne]
    dsimp only
    rw [Nat.mod_eq_of_lt (hoff (by omega))]
    have hpos : 0 < m - k * pgsize := by
      unfold pgsize at *
      omega
    set len := if m - k * pgsize < pgsize then m - k * pgsize else pgsize with hlen
    have hle : len ≤ pgsize ∧ len ≤ m - k * pgsize ∧ 0 < len := by
      rw [hlen]
      split_ifs <;> unfold pgsize at * <;> omega
    have hfit : (readResult file (off + k * pgsize) len).length ≤ pgsize :=
      (length_readResult_le file _ _).trans hle.1
    -- the page before it is followed by the next one
    have hsp := h.addrSpace hf
    have hva : (w + k) * pgsize / pgsize = w + k := div_pgsize _
    have hmod : (w + k) * pgsize % pgsize = 0 := Nat.mul_mod_left _ _
    have hmem := umem_setMem (l := readResult file (off + k * pgsize) len) hsp
      (by rw [hva]; show w + k < npages sz; omega) (by rw [hva]; exact he) (by rw [hmod]; omega)
    rw [hmod] at hmem
    have hm : MemOnly s (s.setMem e.pa (putBytes (s.mem e.pa) 0
        (readResult file (off + k * pgsize) len))) := memOnly_setMem s e.pa _
    have hun : Unwritten s₀ s → Unwritten s₀ (s.setMem e.pa (putBytes (s.mem e.pa) 0
        (readResult file (off + k * pgsize) len))) := by
      intro h0 pa hpa
      have hpa' : pa ≠ e.pa := by
        rintro rfl
        exact hpa (h.page_free (by omega) he)
      show Function.update s.mem e.pa _ pa = _
      rw [Function.update_of_ne hpa', h0 pa hpa]
    apply tot_modify
    by_cases hfull : (readResult file (off + k * pgsize) len).length ≠ len
    · rw [if_pos hfull]
      exact tot_pure ⟨hm, hun, nofun, nofun⟩
    rw [if_neg hfull]
    rw [not_not] at hfull
    obtain ⟨hin, hread⟩ := readResult_full hle.2.2 hfull
    generalize s.setMem e.pa (putBytes (s.mem e.pa) 0 (readResult file (off + k * pgsize) len)) = s1 at *
    have hnext : (k + 1) * pgsize = k * pgsize + pgsize := Nat.succ_mul k pgsize
    rw [← hnext]
    -- all pages but the last one are read in full
    have hpage : 0 < m - (k + 1) * pgsize → len = pgsize := by
      intro h0
      rw [hlen, if_neg (by omega)]
    have hrest : m - k * pgsize = len + (m - (k + 1) * pgsize) := by
      rw [hlen]
      split_ifs <;> omega
    have hn' : n = (m - (k + 1) * pgsize + pgsize - 1) / pgsize := by
      rw [hnext]
      unfold pgsize at *
      omega
    have hmore : 0 < n → off + (k + 1) * pgsize < 2 ^ 32 := by
      intro h0
      have hpos' : 0 < m - (k + 1) * pgsize := by
        by_contra hz
        rw [show m - (k + 1) * pgsize = 0 by omega] at hn'
        unfold pgsize at hn'
        omega
      have := hpage hpos'
      omega
    apply tot_mono (ih (k := k + 1) (h.memOnly hm) (by rw [hm.tbl]; exact hu) (by omega) hn' hmore)
    rintro ok s2 ⟨hm2, hun2, hin2, hbyte2⟩
    refine ⟨hm.trans hm2, fun h0 => hun2 (hun h0), fun hok => .inr ?_, fun hok => ?_⟩
    · rcases hin2 hok with h0 | h0
      · omega
      · by_cases hz : m - (k + 1) * pgsize = 0
        · omega
        · have := hpage (by omega)
          omega
    · rw [hbyte2 hok, hmem, hread]
      show Cells.put (Cells.put _ _ _) _ _ = _
      rw [hrest, List.take_add, List.drop_drop, Cells.put_append, ← hread, hfull]
      by_cases hz : m - (k + 1) * pgsize = 0
      · rw [hz, List.take_zero, List.take_zero, Cells.put_nil, Cells.put_nil]
      · rw [hpage (by omega), ← add_assoc w k 1, Nat.succ_mul (w + k), Nat.add_assoc off, ← hnext]

/-- `loadseg` of a segment below the size. -/
theorem loadseg_exact {va : ℕ} (off m : ℕ) (hf : FreeOk L s₀) (hc : file.length < 2 ^ 32)
    (h : Building L p r sz s₀ s) (hu : AllUser (s.tbl r) sz) (hal : va % pgsize = 0)
    (hle : va + m ≤ sz) (hoff : off < 2 ^ 32) :
    Tot (loadseg file r va off m) s fun ok s' => Loaded file (Image.as p r sz) va off m s₀ s s' ok := by
  have hv : va / pgsize * pgsize = va := Nat.div_mul_cancel (Nat.dvd_of_mod_eq_zero hal)
  have hn : va / pgsize + 0 + (m + pgsize - 1) / pgsize ≤ npages sz := by
    unfold npages pgsize at *
    omega
  have htot := loadsegLoop_exact (va / pgsize) off m (k := 0) hf hc _ h hu hn
    (by rw [Nat.zero_mul, Nat.sub_zero]) (by omega)
  rw [Nat.zero_mul, Nat.add_zero, Nat.add_zero, Nat.sub_zero, hv] at htot
  exact htot

/-! ## The headers of a file -/

/-- The program header at `off`. -/
def proghdr (file : List UInt8) (off : ℕ) : Proghdr := .ofBytes ((file.drop off).take proghdrSize)

/-- The `n` program headers from `off` on. -/
def headers (file : List UInt8) : ℕ → ℕ → List Proghdr
  | 0, _ => []
  | n + 1, off => proghdr file off :: headers file n (off + proghdrSize)

/-- The size of a program of size `sz` with one more header. -/
def grow (sz : ℕ) (ph : Proghdr) : ℕ :=
  if ph.type = elfProgLoad then max sz (ph.vaddr + ph.memsz) else sz

/-- Memory after the segment of a header was loaded, from where `readi` finds it. -/
def place (file : List UInt8) (f : ℕ → UInt8) (ph : Proghdr) : ℕ → UInt8 :=
  if ph.type = elfProgLoad then Cells.put f ph.vaddr ((file.drop (ph.off % 2 ^ 32)).take ph.filesz)
  else f

/-- A segment of a program of size `sz`. -/
structure Segment (file : List UInt8) (sz : ℕ) (ph : Proghdr) : Prop where
  filesz_le : ph.filesz ≤ ph.memsz
  end_le : ph.vaddr + ph.memsz ≤ sz
  inside : ph.filesz = 0 ∨ ph.off % 2 ^ 32 + ph.filesz ≤ file.length

theorem Segment.mono {sz' : ℕ} {ph : Proghdr} (h : Segment file sz ph) (hle : sz ≤ sz') :
    Segment file sz' ph :=
  ⟨h.filesz_le, h.end_le.trans hle, h.inside⟩

theorem ofBytes_lt : ∀ l : List UInt8, ofBytes l < 2 ^ (8 * l.length)
  | [] => by decide
  | b :: l => by
    have := ofBytes_lt l
    have hb := b.toNat_lt
    rw [ofBytes, List.length_cons, Nat.mul_succ, Nat.pow_add]
    omega

theorem field_lt (l : List UInt8) (off n : ℕ) : field l off n < 2 ^ (8 * n) :=
  (ofBytes_lt _).trans_le (Nat.pow_le_pow_right (by norm_num)
    (Nat.mul_le_mul_left 8 (List.length_take_le _ _)))

theorem le_foldl_grow : ∀ (phs : List Proghdr) (sz : ℕ), sz ≤ phs.foldl grow sz
  | [], _ => le_rfl
  | ph :: phs, sz => by
    refine le_trans ?_ (le_foldl_grow phs (grow sz ph))
    unfold grow
    split_ifs
    · exact le_max_left _ _
    · exact le_rfl

/-- Memory bounds the size of an image. -/
theorem size_lt (hf : FreeOk L s₀) (h : Building L p r sz s₀ s) : sz < 2 ^ 32 := by
  have := (h.space hf).full_le h.full
  unfold npages pgsize at this
  omega

/-- What the loop over the program headers leaves. -/
structure Program (L : Layout) (p : Proc) (file : List UInt8) (phs : List Proghdr) (r sz sz' : ℕ)
    (s s' : Vm.St T) : Prop where
  user : AllUser (s'.tbl r) sz'
  size : sz' = phs.foldl grow sz
  segment : ∀ ph ∈ phs, ph.type = elfProgLoad → Segment file sz' ph
  byte : (umem s' (Image.as p r sz')).byte = phs.foldl (place file) (umem s (Image.as p r sz)).byte

theorem loadLoop_exact (hf : FreeOk L s₀) (hc : file.length < 2 ^ 32) (n : ℕ) :
    ∀ (off : ℕ) {sz : ℕ} {s : Vm.St T}, Building L p r sz s₀ s → AllUser (s.tbl r) sz →
    (0 < n → off < 2 ^ 32) →
    Tot (loadLoop L file r n off sz) s fun x s' => Building L p r x.2 s₀ s' ∧
      (Unwritten s₀ s → Unwritten s₀ s') ∧
      (x.1 → Program L p file (headers file n off) r sz x.2 s s') := by
  induction n with
  | zero => exact fun _ _ _ h hu _ => tot_pure ⟨h, id, fun _ => ⟨hu, rfl, nofun, rfl⟩⟩
  | succ n ih =>
    intro off sz s h hu hoff
    unfold loadLoop
    dsimp only
    by_cases hread : (readResult file off proghdrSize).length ≠ proghdrSize
    · rw [if_pos hread]
      exact tot_pure ⟨h, id, nofun⟩
    rw [if_neg hread]
    rw [not_not] at hread
    obtain ⟨hin, hres⟩ := readResult_full (by decide) hread
    have hwrap : (off + proghdrSize) % 2 ^ 32 = off + proghdrSize := Nat.mod_eq_of_lt (by omega)
    have hph : Proghdr.ofBytes (readResult file off proghdrSize) = proghdr file off := by
      rw [hres]
      rfl
    have hvaddr : (proghdr file off).vaddr < 2 ^ 64 := field_lt _ 16 8
    have hmemsz : (proghdr file off).memsz < 2 ^ 64 := field_lt _ 40 8
    rw [hph, hwrap]
    show Tot _ s fun (x : Bool × ℕ) s' => _ ∧ _ ∧
      (x.1 → Program L p file (proghdr file off :: headers file n (off + proghdrSize)) r sz x.2 s s')
    generalize proghdr file off = ph at *
    by_cases hload : ph.type ≠ elfProgLoad
    · rw [if_pos hload]
      apply tot_mono (ih _ h hu fun _ => by omega)
      rintro x s' ⟨hb, hun, hprog⟩
      refine ⟨hb, hun, fun hx => ?_⟩
      obtain ⟨h1, h2, h3, h4⟩ := hprog hx
      refine ⟨h1, ?_, ?_, ?_⟩
      · rw [List.foldl_cons, grow, if_neg hload]
        exact h2
      · intro ph' hph' hl
        rcases List.mem_cons.1 hph' with rfl | hph'
        · exact absurd hl hload
        · exact h3 ph' hph' hl
      · rw [List.foldl_cons, place, if_neg hload]
        exact h4
    rw [if_neg hload]
    rw [not_not] at hload
    split_ifs with hfile hend hal
    · exact tot_pure ⟨h, id, nofun⟩
    · exact tot_pure ⟨h, id, nofun⟩
    · exact tot_pure ⟨h, id, nofun⟩
    -- the sum did not wrap around
    have hsum : u64 (ph.vaddr + ph.memsz) = ph.vaddr + ph.memsz := by
      unfold u64 at *
      omega
    apply tot_bind
    apply tot_mono (h.uvmalloc hf (u64 (ph.vaddr + ph.memsz)) (flags2perm ph.flags))
    rintro sz1 s1 ⟨hz, hnz, hun1⟩
    split_ifs with h0
    · exact tot_pure ⟨(hz h0).1, hun1, nofun⟩
    obtain ⟨hmax, hb1, hfill, hbyte1⟩ := hnz h0
    rw [hsum] at hmax
    have hu1 : AllUser (s1.tbl r) sz1 := hu.filled rfl hfill
    have hlt := size_lt hf hb1
    have hfilesz : ph.filesz % 2 ^ 32 = ph.filesz := Nat.mod_eq_of_lt (by omega)
    rw [hfilesz]
    apply tot_bind
    apply tot_mono (loadseg_exact (ph.off % 2 ^ 32) ph.filesz hf hc hb1 hu1 (by omega) (by omega)
      (Nat.mod_lt _ (by norm_num)))
    rintro ok s2 ⟨hm, hun2, hin2, hbyte2⟩
    have hb2 := hb1.memOnly hm
    split_ifs with hok
    swap
    · exact tot_pure ⟨hb2, fun hu0 => hun2 (hun1 hu0), nofun⟩
    apply tot_mono (ih (off + proghdrSize) hb2 (by rw [hm.tbl]; exact hu1) fun _ => by omega)
    rintro x s' ⟨hb, hun, hprog⟩
    refine ⟨hb, fun hu0 => hun (hun2 (hun1 hu0)), fun hx => ?_⟩
    obtain ⟨h1, h2, h3, h4⟩ := hprog hx
    have hgrow : grow sz ph = sz1 := by
      rw [grow, if_pos hload, hmax]
    refine ⟨h1, ?_, ?_, ?_⟩
    · rw [List.foldl_cons, hgrow]
      exact h2
    · intro ph' hph' hl
      rcases List.mem_cons.1 hph' with rfl | hph'
      · have hseg : Segment file sz1 ph' := ⟨by omega, by omega, hin2 hok⟩
        exact hseg.mono (h2 ▸ le_foldl_grow _ _)
      · exact h3 ph' hph' hl
    · rw [List.foldl_cons, place, if_pos hload, h4, hbyte2 hok, hbyte1]

/-! ## The bytes of the image -/

/-- The ELF header of a file. -/
def elfhdr (file : List UInt8) : Elfhdr := .ofBytes ((file.drop 0).take elfhdrSize)

/-- The program headers that `kexec` reads. -/
def programHeaders (file : List UInt8) : List Proghdr :=
  headers file (elfhdr file).phnum ((elfhdr file).phoff % 2 ^ 32)

/-- Either all is as before, or there is an image of the program. -/
theorem load_exact (hf : FreeOk L s) (hc : file.length < 2 ^ 32) :
    Tot (load L p file) s fun o s' =>
      (o = none → Restored s s') ∧ Unwritten s s' ∧
      ∀ r sz, o = some (r, sz) → Building L p r sz s s' ∧
        readResult file 0 elfhdrSize = (file.drop 0).take elfhdrSize ∧
        AllUser (s'.tbl r) sz ∧ sz = (programHeaders file).foldl grow 0 ∧
        (∀ ph ∈ programHeaders file, ph.type = elfProgLoad → Segment file sz ph) ∧
        (umem s' (Image.as p r sz)).byte = (programHeaders file).foldl (place file) fun _ => 0 := by
  unfold load
  dsimp only
  by_cases hread : (readResult file 0 elfhdrSize).length ≠ elfhdrSize
  · rw [if_pos hread]
    exact tot_pure ⟨fun _ => .refl s, fun _ _ => rfl, nofun⟩
  rw [if_neg hread]
  rw [not_not] at hread
  obtain ⟨-, hres⟩ := readResult_full (by decide) hread
  split_ifs with hmagic
  · exact tot_pure ⟨fun _ => .refl s, fun _ _ => rfl, nofun⟩
  apply tot_bind
  apply tot_mono (procPagetable_tot p.trapframe hf)
  rintro o s1 ⟨hnone, hsome, hun1⟩
  cases o with
  | none => exact tot_pure ⟨fun _ => hnone rfl, hun1, nofun⟩
  | some r =>
    have hb1 := (hsome r rfl).building
    have hn0 : npages 0 = 0 := rfl
    dsimp only
    apply tot_bind
    apply tot_mono (loadLoop_exact hf hc (Elfhdr.ofBytes (readResult file 0 elfhdrSize)).phnum
      ((Elfhdr.ofBytes (readResult file 0 elfhdrSize)).phoff % 2 ^ 32) hb1
      (fun v hv => absurd hv (by rw [hn0]; omega)) fun _ => Nat.mod_lt _ (by norm_num))
    rintro ⟨ok, sz⟩ s2 ⟨hb2, hun2, hprog⟩
    dsimp only at hb2 hprog ⊢
    split_ifs with hok
    · obtain ⟨h1, h2, h3, h4⟩ := hprog hok
      rw [hres] at h2 h3 h4
      refine tot_pure ⟨nofun, hun2 hun1, ?_⟩
      rintro _ _ ⟨⟩
      refine ⟨hb2, hres, h1, h2, h3, h4.trans ?_⟩
      show (programHeaders file).foldl (place file) _ = _
      congr 1
      funext a
      exact if_neg (by rw [hn0]; exact Nat.not_lt_zero _)
    · apply tot_bind
      apply tot_mono (hb2.free hf)
      rintro _ s3 ⟨hr, hun3⟩
      exact tot_pure ⟨fun _ => hr, hun3 (hun2 hun1), nofun⟩

end Xv6.Exec
