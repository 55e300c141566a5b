import Mathlib

/-!
# Memory cut into blocks

Blocks, given by where they begin and by their lengths, that do not overlap and together are a given
set of addresses. Blocks are added, cut in two and joined with the block that follows.
-/

namespace Xv6

open Finset

variable {len len' : ℕ → ℕ} {B : Finset ℕ} {M M' : Set ℕ} {N a b c k n : ℕ}

/-- The blocks that begin at `B` are disjoint, cover `M` and have `N` bytes together. -/
structure Tiles (len : ℕ → ℕ) (B : Finset ℕ) (M : Set ℕ) (N : ℕ) : Prop where
  pos : ∀ b ∈ B, 0 < len b
  apart : ∀ b ∈ B, ∀ c ∈ B, b < c → b + len b ≤ c
  cover : ∀ x, x ∈ M ↔ ∃ b ∈ B, b ≤ x ∧ x < b + len b
  total : ∑ b ∈ B, len b = N

namespace Tiles

theorem empty : Tiles len ∅ ∅ 0 where
  pos := fun _ hb => absurd hb (notMem_empty _)
  apart := fun _ hb => absurd hb (notMem_empty _)
  cover := fun _ => ⟨fun h => h.elim, fun ⟨_, hb, _⟩ => absurd hb (notMem_empty _)⟩
  total := sum_empty

theorem mem (h : Tiles len B M N) (hb : b ∈ B) {x : ℕ} (h1 : b ≤ x) (h2 : x < b + len b) : x ∈ M :=
  (h.cover x).2 ⟨b, hb, h1, h2⟩

theorem start_mem (h : Tiles len B M N) (hb : b ∈ B) : b ∈ M :=
  h.mem hb le_rfl (Nat.lt_add_of_pos_right (h.pos b hb))

/-- An address is in one block only. -/
theorem unique (h : Tiles len B M N) (hb : b ∈ B) (hc : c ∈ B) {x : ℕ} (h1 : b ≤ x)
    (h2 : x < b + len b) (h3 : c ≤ x) (h4 : x < c + len c) : b = c := by
  rcases lt_trichotomy b c with hbc | hbc | hbc
  · have := h.apart b hb c hc hbc
    omega
  · exact hbc
  · have := h.apart c hc b hb hbc
    omega

theorem len_add_le (h : Tiles len B M N) (hb : b ∈ B) (hc : c ∈ B) (hbc : b ≠ c) :
    len b + len c ≤ N := by
  have hs := add_sum_erase B len hb
  have hle : len c ≤ ∑ x ∈ B.erase b, len x :=
    single_le_sum (fun _ _ => Nat.zero_le _) (mem_erase.2 ⟨hbc.symm, hc⟩)
  have ht := h.total
  omega

/-- A new block outside of the memory. -/
theorem add (h : Tiles len B M N) (hn : 0 < n) (hM : ∀ x, a ≤ x → x < a + n → x ∉ M)
    (ha : len' a = n) (he : ∀ b ∈ B, len' b = len b) :
    Tiles len' (insert a B) (M ∪ {x | a ≤ x ∧ x < a + n}) (N + n) := by
  have haB : a ∉ B := fun hB => hM a le_rfl (by omega) (h.start_mem hB)
  constructor
  · intro b hb
    rcases mem_insert.1 hb with rfl | hb
    · rwa [ha]
    · rw [he b hb]
      exact h.pos b hb
  · intro b hb c hc hbc
    rcases mem_insert.1 hb with rfl | hbB
    · have hcB := mem_of_mem_insert_of_ne hc hbc.ne'
      rw [ha]
      by_contra hlt
      exact hM c hbc.le (by omega) (h.start_mem hcB)
    · rw [he b hbB]
      rcases mem_insert.1 hc with rfl | hcB
      · by_contra hlt
        exact hM c le_rfl (by omega) (h.mem hbB hbc.le (by omega))
      · exact h.apart b hbB c hcB hbc
  · intro x
    rw [Set.mem_union, h.cover, exists_mem_insert, ha, or_comm]
    exact or_congr Iff.rfl (exists_congr fun b => and_congr_right fun hb => by rw [he b hb])
  · rw [sum_insert haB, ha, sum_congr rfl he, h.total, Nat.add_comm]

/-- Two neighbouring blocks become one. -/
theorem merge (h : Tiles len B M N) (hb : b ∈ B) (hc : c ∈ B) (hbc : b + len b = c)
    (hb' : len' b = len b + len c) (he : ∀ x ∈ B, x ≠ b → x ≠ c → len' x = len x) :
    Tiles len' (B.erase c) M N := by
  have hlt : b < c := hbc ▸ Nat.lt_add_of_pos_right (h.pos b hb)
  have hcpos := h.pos c hc
  constructor
  · intro x hx
    obtain ⟨hxc, hxB⟩ := mem_erase.1 hx
    by_cases hxb : x = b
    · rw [hxb, hb']
      omega
    · rw [he x hxB hxb hxc]
      exact h.pos x hxB
  · intro x hx y hy hxy
    obtain ⟨hxc, hxB⟩ := mem_erase.1 hx
    obtain ⟨hyc, hyB⟩ := mem_erase.1 hy
    by_cases hxb : x = b
    · subst hxb
      have h1 := h.apart x hb y hyB hxy
      have h2 := h.apart c hc y hyB (by omega)
      omega
    · rw [he x hxB hxb hxc]
      exact h.apart x hxB y hyB hxy
  · intro x
    rw [h.cover]
    constructor
    · rintro ⟨y, hy, h1, h2⟩
      by_cases hyc : y = c
      · exact ⟨b, mem_erase.2 ⟨hlt.ne, hb⟩, by omega, by subst hyc; omega⟩
      · by_cases hyb : y = b
        · exact ⟨b, mem_erase.2 ⟨hlt.ne, hb⟩, by omega, by subst hyb; omega⟩
        · exact ⟨y, mem_erase.2 ⟨hyc, hy⟩, h1, by rwa [he y hy hyb hyc]⟩
    · rintro ⟨y, hy, h1, h2⟩
      obtain ⟨hyc, hyB⟩ := mem_erase.1 hy
      by_cases hyb : y = b
      · subst hyb
        by_cases hx : x < y + len y
        · exact ⟨y, hb, h1, hx⟩
        · exact ⟨c, hc, by omega, by omega⟩
      · exact ⟨y, hyB, h1, by rwa [he y hyB hyb hyc] at h2⟩
  · have h1 := add_sum_erase B len hc
    have hbm : b ∈ B.erase c := mem_erase.2 ⟨hlt.ne, hb⟩
    have h2 := add_sum_erase (B.erase c) len hbm
    have h3 := add_sum_erase (B.erase c) len' hbm
    have h4 : ∑ x ∈ (B.erase c).erase b, len' x = ∑ x ∈ (B.erase c).erase b, len x := by
      refine sum_congr rfl fun x hx => ?_
      obtain ⟨hxb, hx⟩ := mem_erase.1 hx
      obtain ⟨hxc, hxB⟩ := mem_erase.1 hx
      exact he x hxB hxb hxc
    have ht := h.total
    omega

/-- A block is cut in two, the first part with `k` bytes. -/
theorem split (h : Tiles len B M N) (hb : b ∈ B) (hk : 0 < k) (hkl : k < len b)
    (hb' : len' b = k) (hc' : len' (b + k) = len b - k)
    (he : ∀ x ∈ B, x ≠ b → len' x = len x) : Tiles len' (insert (b + k) B) M N := by
  have hcB : b + k ∉ B := by
    intro hB
    have := h.apart b hb (b + k) hB (by omega)
    omega
  have hne : b ≠ b + k := by omega
  constructor
  · intro x hx
    rcases mem_insert.1 hx with rfl | hxB
    · rw [hc']
      omega
    · by_cases hxb : x = b
      · rwa [hxb, hb']
      · rw [he x hxB hxb]
        exact h.pos x hxB
  · intro x hx y hy hxy
    rcases mem_insert.1 hx with rfl | hxB
    · rcases mem_insert.1 hy with rfl | hyB
      · omega
      · have := h.apart b hb y hyB (by omega)
        omega
    · by_cases hxb : x = b
      · subst hxb
        rcases mem_insert.1 hy with rfl | hyB
        · omega
        · have := h.apart x hb y hyB hxy
          omega
      · rw [he x hxB hxb]
        rcases mem_insert.1 hy with rfl | hyB
        · rcases Nat.lt_or_ge x b with hlt | hge
          · have := h.apart x hxB b hb hlt
            omega
          · have := h.apart b hb x hxB (by omega)
            omega
        · exact h.apart x hxB y hyB hxy
  · intro x
    rw [h.cover]
    constructor
    · rintro ⟨y, hy, h1, h2⟩
      by_cases hyb : y = b
      · subst hyb
        by_cases hx : x < y + k
        · exact ⟨y, mem_insert_of_mem hy, h1, by omega⟩
        · exact ⟨y + k, mem_insert_self _ _, by omega, by omega⟩
      · exact ⟨y, mem_insert_of_mem hy, h1, by rwa [he y hy hyb]⟩
    · rintro ⟨y, hy, h1, h2⟩
      rcases mem_insert.1 hy with rfl | hyB
      · exact ⟨b, hb, by omega, by omega⟩
      · by_cases hyb : y = b
        · subst hyb
          exact ⟨y, hb, h1, by omega⟩
        · exact ⟨y, hyB, h1, by rwa [he y hyB hyb] at h2⟩
  · have h1 := add_sum_erase B len hb
    have h2 := add_sum_erase B len' hb
    have h3 : ∑ x ∈ B.erase b, len' x = ∑ x ∈ B.erase b, len x :=
      sum_congr rfl fun x hx => he x (mem_of_mem_erase hx) (ne_of_mem_erase hx)
    have ht := h.total
    rw [sum_insert hcB]
    omega

end Tiles

end Xv6
