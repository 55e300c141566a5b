import Xv6.Vm.Proc

/-!
# What freeing a page table can change

The functions that free a table write only to pages that they put on the free list.
-/

namespace Xv6.Vm

variable {T : Type} {L : Layout} {s s' s'' : St T} {r va : ℕ} {α β : Type}

/-- Pages were freed, and memory changed only there. -/
structure OnlyFreed (s s' : St T) : Prop where
  free : ∀ pa ∈ s.free, pa ∈ s'.free
  mem : ∀ pa ∉ s'.free, s'.mem pa = s.mem pa

theorem OnlyFreed.refl (s : St T) : OnlyFreed s s := ⟨fun _ h => h, fun _ _ => rfl⟩

theorem OnlyFreed.trans (h : OnlyFreed s s') (h' : OnlyFreed s' s'') : OnlyFreed s s'' where
  free pa hpa := h'.free pa (h.free pa hpa)
  mem pa hpa := (h'.mem pa hpa).trans (h.mem pa fun hc => hpa (h'.free pa hc))

/-- From every state, the program only frees pages, if it returns. -/
def Frees (x : K T α) : Prop := ∀ s, Safe (fun _ => True) x s fun _ s' => OnlyFreed s s'

theorem frees_pure (a : α) : Frees (pure a : K T α) := fun s => safe_pure (.refl s)

theorem frees_panic (m : String) : Frees (kpanic m : K T α) := fun _ => trivial

theorem Frees.bind {x : K T α} {f : α → K T β} (h : Frees x) (hf : ∀ a, Frees (f a)) :
    Frees (x >>= f) := fun s =>
  safe_bind (safe_mono (h s) fun a s' hs => safe_mono (hf a s') fun _ _ hs' => hs.trans hs')

theorem frees_get {f : St T → K T β} (hf : ∀ s, Frees (f s)) : Frees (get >>= f) := fun s =>
  safe_get (hf s s)

theorem frees_modify {g : St T → St T} (hfree : ∀ s, (g s).free = s.free)
    (hmem : ∀ s, (g s).mem = s.mem) : Frees (modify g : K T PUnit) := fun s =>
  safe_modify ⟨fun pa hpa => by rwa [hfree], fun pa _ => by rw [hmem]⟩

theorem frees_ite {c : Prop} [Decidable c] {x y : K T α} (hx : Frees x) (hy : Frees y) :
    Frees (if c then x else y) := fun s => safe_ite (fun _ => hx s) fun _ => hy s

theorem frees_kfree (L : Layout) (pa : ℕ) : Frees (kfree L pa : K T Unit) := by
  refine frees_ite (fun s => safe_modify ⟨fun a ha => List.mem_cons_of_mem _ ha, fun a ha => ?_⟩)
    (frees_panic _)
  have hne : a ≠ pa := by
    rintro rfl
    exact ha List.mem_cons_self
  exact Function.update_of_ne hne _ _

theorem frees_setTbl (r : ℕ) (f : St T → Tbl) :
    Frees (modify fun s => s.setTbl r (f s) : K T PUnit) :=
  frees_modify (fun _ => rfl) fun _ => rfl

theorem frees_walk (r va : ℕ) : Frees (walk r va false : K T Bool) := by
  unfold walk
  simp only [Bool.false_eq_true, if_false]
  refine frees_ite (frees_panic _) (frees_get fun s => .bind ?_ fun ok => frees_ite ?_ (frees_pure _))
  · split <;> exact frees_pure _
  · refine frees_get fun s => ?_
    split <;> exact frees_pure _

theorem frees_uvmunmapLoop (doFree : Bool) : ∀ n a, Frees (uvmunmapLoop L r doFree n a : K T Unit)
  | 0, _ => frees_pure _
  | n + 1, a => by
    unfold uvmunmapLoop
    refine .bind (frees_walk r a) fun ok => frees_ite (frees_get fun s => ?_) ?_
    · split
      · exact frees_uvmunmapLoop doFree n _
      · have hrest : Frees (do
            modify fun s => s.setPte r (a / pgsize) none
            uvmunmapLoop L r doFree n (a + pgsize) : K T Unit) :=
          .bind (frees_setTbl r _) fun _ => frees_uvmunmapLoop doFree n _
        exact frees_ite (.bind (frees_kfree L _) fun _ => hrest) hrest
    · exact frees_uvmunmapLoop doFree n _

theorem frees_uvmunmap (va npages : ℕ) (doFree : Bool) :
    Frees (uvmunmap L r va npages doFree : K T Unit) :=
  frees_ite (frees_panic _) (frees_uvmunmapLoop doFree _ _)

theorem frees_freewalkLeaf (j : ℕ) : ∀ n, Frees (freewalkLeaf r j n : K T Unit)
  | 0 => frees_pure _
  | n + 1 => by
    unfold freewalkLeaf
    refine frees_get fun s => ?_
    split
    · exact frees_freewalkLeaf j n
    · exact frees_ite (frees_panic _) (frees_panic _)

theorem frees_freewalkMid (i : ℕ) : ∀ n, Frees (freewalkMid L r i n : K T Unit)
  | 0 => frees_pure _
  | n + 1 => by
    unfold freewalkMid
    refine frees_get fun s => ?_
    split
    · exact frees_freewalkMid i n
    · exact .bind (frees_freewalkLeaf _ _) fun _ => .bind (frees_kfree L _) fun _ =>
        .bind (frees_setTbl r _) fun _ => frees_freewalkMid i n

theorem frees_freewalkRoot : ∀ n, Frees (freewalkRoot L r n : K T Unit)
  | 0 => frees_pure _
  | n + 1 => by
    unfold freewalkRoot
    refine frees_get fun s => ?_
    split
    · exact frees_freewalkRoot n
    · exact .bind (frees_freewalkMid _ _) fun _ => .bind (frees_kfree L _) fun _ =>
        .bind (frees_setTbl r _) fun _ => frees_freewalkRoot n

theorem frees_uvmfree (sz : ℕ) : Frees (uvmfree L r sz : K T Unit) := by
  have hwalk : Frees (freewalk L r : K T Unit) :=
    .bind (frees_freewalkRoot 512) fun _ => frees_kfree L r
  unfold uvmfree
  exact frees_ite (.bind (frees_uvmunmap _ _ _) fun _ => hwalk) hwalk

theorem frees_procFreepagetable (sz : ℕ) : Frees (procFreepagetable L r sz : K T Unit) :=
  .bind (frees_uvmunmap _ _ _) fun _ => .bind (frees_uvmunmap _ _ _) fun _ => frees_uvmfree sz

/-- Total correctness with what is known of the pages. -/
theorem Frees.tot {x : K T α} {Q : α → St T → Prop} (h : Frees x) (hx : Tot x s Q) :
    Tot x s fun a s' => Q a s' ∧ OnlyFreed s s' := by
  obtain ⟨a, s', he, hq⟩ := hx
  exact ⟨a, s', he, hq, (h s).of_ok he⟩

end Xv6.Vm
