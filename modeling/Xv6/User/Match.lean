import Xv6.User.Ulib

/-!
# The matcher of grep

`match`, `matchhere` and `matchstar` of `grep.c`. A pointer into a string is the rest of the string.

The patterns denote languages: an item is one character or a repetition of it, and the items of a
pattern, in order, are concatenated. The matcher decides whether a text has a part in this language,
at the start of the text if the pattern begins with `^`, and up to its end if it ends with `$`.
-/

open scoped Computability

namespace Xv6.User.Grep

/-! ## The matcher -/

mutual

/-- Looks for `re` at the beginning of `text`. -/
def matchhere (re text : List UInt8) : Bool :=
  if chr re 0 = 0 then true
  else if chr re 1 = ch '*' then matchstar (chr re 0) (re.drop 2) text
  else if chr re 0 = ch '$' ∧ chr re 1 = 0 then chr text 0 == 0
  else if chr text 0 ≠ 0 ∧ (chr re 0 = ch '.' ∨ chr re 0 = chr text 0) then
    matchhere (re.drop 1) (text.drop 1)
  else false
termination_by (re.length, 0, 0)
decreasing_by
  all_goals
    have := length_pos_of_chr ‹¬chr re 0 = 0›
    simp only [List.length_drop]
    exact Prod.Lex.left _ _ (by omega)

/-- Looks for `c*re` at the beginning of `text`. -/
def matchstar (c : UInt8) (re text : List UInt8) : Bool :=
  if matchhere re text then true
  else if chr text 0 ≠ 0 ∧ (chr text 0 = c ∨ c = ch '.') then matchstar c re (text.drop 1)
  else false
termination_by (re.length, 1, text.length)
decreasing_by
  · exact Prod.Lex.right _ (Prod.Lex.left _ _ Nat.zero_lt_one)
  · have := length_pos_of_chr (And.left ‹chr text 0 ≠ 0 ∧ _›)
    simp only [List.length_drop]
    exact Prod.Lex.right _ (Prod.Lex.right _ (by omega))

end

/-- The loop of `match`, which also looks at the empty rest of the text. -/
def matchAny (re text : List UInt8) : Bool :=
  if matchhere re text then true
  else if chr text 0 ≠ 0 then matchAny re (text.drop 1)
  else false
termination_by text.length
decreasing_by
  have := length_pos_of_chr ‹chr text 0 ≠ 0›
  simp only [List.length_drop]
  omega

/-- The source's `match`. -/
def matchRe (re text : List UInt8) : Bool :=
  if chr re 0 = ch '^' then matchhere (re.drop 1) text else matchAny re text

/-! ## Texts inside a buffer -/

/-- An item of a pattern: the character `c`, or `c*`. -/
inductive Item where
  | one (c : UInt8)
  | star (c : UInt8)

/-- The one-character strings that `c` stands for; `.` stands for every character. -/
def single (c : UInt8) : Language UInt8 := {s | ∃ b, s = [b] ∧ (c = ch '.' ∨ c = b)}

/-- The strings that an item stands for. -/
def Item.lang : Item → Language UInt8
  | .one c => single c
  | .star c => (single c)∗

/-- A pattern: its items, and whether it is bound to the start or to the end of the text. -/
structure Pattern where
  fromStart : Bool
  items : List Item
  toEnd : Bool

/-- The items of a pattern without its leading `^`, and whether a final `$` follows them. A `*`
makes an item of the character before it, whatever that is; without one before it, it stands for
itself. -/
def readItems : List UInt8 → List Item × Bool
  | [] => ([], false)
  | [c] => if c = ch '$' then ([], true) else ([.one c], false)
  | c :: d :: re =>
    if d = ch '*' then (.star c :: (readItems re).1, (readItems re).2)
    else (.one c :: (readItems (d :: re)).1, (readItems (d :: re)).2)

/-- The pattern that a string spells. -/
def readPattern (re : List UInt8) : Pattern :=
  if re.head? = some (ch '^') then ⟨true, (readItems re.tail).1, (readItems re.tail).2⟩
  else ⟨false, (readItems re).1, (readItems re).2⟩

/-- The strings that are concatenations of strings of the items, in order. -/
def langOf (l : List Item) : Language UInt8 := (l.map Item.lang).prod

/-- Some part of the text is in the language of the items: a prefix if the pattern is bound to the
start, a suffix if it is bound to the end. -/
def Pattern.Accepts (p : Pattern) (text : List UInt8) : Prop :=
  ∃ before part after, text = before ++ part ++ after ∧ part ∈ langOf p.items ∧
    (p.fromStart = true → before = []) ∧ (p.toEnd = true → after = [])

/-! ## Items -/

theorem mem_langOf_nil {s : List UInt8} : s ∈ langOf [] ↔ s = [] := Language.mem_one s

theorem mem_langOf_cons {i : Item} {l : List Item} {s : List UInt8} :
    s ∈ langOf (i :: l) ↔ ∃ u ∈ i.lang, ∃ v ∈ langOf l, u ++ v = s := by
  unfold langOf
  rw [List.map_cons, List.prod_cons]
  exact Language.mem_mul

theorem mem_star {c : UInt8} {s : List UInt8} :
    s ∈ (Item.star c).lang ↔ ∀ b ∈ s, c = ch '.' ∨ c = b := by
  show s ∈ (single c)∗ ↔ _
  rw [Language.mem_kstar]
  constructor
  · rintro ⟨L, rfl, hL⟩ b hb
    obtain ⟨y, hy, hby⟩ := List.mem_flatten.1 hb
    obtain ⟨b', rfl, hc⟩ := hL y hy
    rw [List.mem_singleton.1 hby]
    exact hc
  · intro h
    refine ⟨s.map fun b => [b], ?_, ?_⟩
    · rw [← List.flatMap_def, List.flatMap_singleton']
    · intro y hy
      obtain ⟨b, hb, rfl⟩ := List.mem_map.1 hy
      exact ⟨b, rfl, h b hb⟩

theorem nil_mem_star (c : UInt8) : [] ∈ (Item.star c).lang :=
  mem_star.2 fun _ hb => absurd hb List.not_mem_nil

theorem cons_mem_star {c b : UInt8} {s : List UInt8} :
    b :: s ∈ (Item.star c).lang ↔ (c = ch '.' ∨ c = b) ∧ s ∈ (Item.star c).lang := by
  rw [mem_star, mem_star]
  exact List.forall_mem_cons

/-! ## The matcher decides the language -/

/-- The text begins with a string of the items, and ends with it if it must. -/
def Here (re text : List UInt8) : Prop :=
  ∃ part after, text = part ++ after ∧ part ∈ langOf (readItems re).1 ∧
    ((readItems re).2 = true → after = [])

theorem here_nil (text : List UInt8) : Here [] text :=
  ⟨[], text, rfl, mem_langOf_nil.2 rfl, fun h => nomatch h⟩

theorem here_end {text : List UInt8} : Here [ch '$'] text ↔ text = [] := by
  have hr : readItems [ch '$'] = ([], true) := if_pos rfl
  unfold Here
  rw [hr]
  constructor
  · rintro ⟨part, after, rfl, hp, ha⟩
    rw [mem_langOf_nil.1 hp, ha rfl]
    rfl
  · rintro rfl
    exact ⟨[], [], rfl, mem_langOf_nil.2 rfl, fun _ => rfl⟩

/-- A pattern that begins with a repetition. -/
theorem here_star {c : UInt8} {re text : List UInt8} :
    Here (c :: ch '*' :: re) text ↔
      ∃ u v, text = u ++ v ∧ u ∈ (Item.star c).lang ∧ Here re v := by
  have hr : readItems (c :: ch '*' :: re) = (.star c :: (readItems re).1, (readItems re).2) :=
    if_pos rfl
  unfold Here
  rw [hr]
  constructor
  · rintro ⟨part, after, rfl, hp, ha⟩
    obtain ⟨u, hu, v, hv, rfl⟩ := mem_langOf_cons.1 hp
    exact ⟨u, v ++ after, List.append_assoc u v after, hu, v, after, rfl, hv, ha⟩
  · rintro ⟨u, _, rfl, hu, v, after, rfl, hv, ha⟩
    exact ⟨u ++ v, after, (List.append_assoc u v after).symm,
      mem_langOf_cons.2 ⟨u, hu, v, hv, rfl⟩, ha⟩

/-- How a pattern is read that begins with neither a repetition nor the final `$`. -/
theorem readItems_one {c : UInt8} {re : List UInt8} (h1 : chr re 0 ≠ ch '*')
    (h2 : ¬(c = ch '$' ∧ re = [])) :
    readItems (c :: re) = (.one c :: (readItems re).1, (readItems re).2) := by
  cases re with
  | nil => exact if_neg fun h => h2 ⟨h, rfl⟩
  | cons d re => exact if_neg h1

theorem here_one {c : UInt8} {re text : List UInt8} (h1 : chr re 0 ≠ ch '*')
    (h2 : ¬(c = ch '$' ∧ re = [])) :
    Here (c :: re) text ↔ ∃ b t, text = b :: t ∧ (c = ch '.' ∨ c = b) ∧ Here re t := by
  unfold Here
  rw [readItems_one h1 h2]
  constructor
  · rintro ⟨part, after, rfl, hp, ha⟩
    obtain ⟨_, ⟨b, rfl, hc⟩, v, hv, rfl⟩ := mem_langOf_cons.1 hp
    exact ⟨b, v ++ after, rfl, hc, v, after, rfl, hv, ha⟩
  · rintro ⟨b, _, rfl, hc, v, after, rfl, hv, ha⟩
    exact ⟨b :: v, after, rfl, mem_langOf_cons.2 ⟨[b], ⟨b, rfl, hc⟩, v, hv, rfl⟩, ha⟩

theorem matchstar_iff {c : UInt8} {re : List UInt8}
    (hre : ∀ t : List UInt8, 0 ∉ t → (matchhere re t ↔ Here re t)) {text : List UInt8}
    (ht : 0 ∉ text) :
    matchstar c re text ↔ ∃ u v, text = u ++ v ∧ u ∈ (Item.star c).lang ∧ Here re v := by
  induction text with
  | nil =>
    have hs : matchstar c re [] = matchhere re [] := by
      rw [matchstar]
      cases matchhere re [] with
      | true => rfl
      | false => exact (if_neg Bool.false_ne_true).trans (if_neg fun h => h.1 rfl)
    rw [hs, hre [] ht]
    constructor
    · exact fun h => ⟨[], [], rfl, nil_mem_star c, h⟩
    · rintro ⟨u, v, huv, -, hv⟩
      rwa [(List.append_eq_nil_iff.1 huv.symm).2] at hv
  | cons b t ih =>
    specialize ih fun h => ht (List.mem_cons_of_mem b h)
    rw [matchstar]
    constructor
    · intro h
      split at h
      next hh => exact ⟨[], b :: t, rfl, nil_mem_star c, (hre _ ht).1 hh⟩
      next =>
        split at h
        next hb =>
          obtain ⟨u, v, rfl, hu, hv⟩ := ih.1 h
          exact ⟨b :: u, v, rfl, cons_mem_star.2 ⟨hb.2.symm.imp id Eq.symm, hu⟩, hv⟩
        next => exact nomatch h
    · rintro ⟨u, v, huv, hu, hv⟩
      split
      next => rfl
      next hh =>
        cases u with
        | nil =>
          rw [List.nil_append] at huv
          rw [← huv] at hv
          exact absurd ((hre _ ht).2 hv) hh
        | cons b' u =>
          obtain ⟨rfl, rfl⟩ := List.cons.inj huv
          obtain ⟨hb, hu⟩ := cons_mem_star.1 hu
          rw [if_pos ⟨ne_zero_of_notMem ht, hb.symm.imp Eq.symm id⟩]
          exact ih.2 ⟨u, v, rfl, hu, hv⟩

/-! How `matchhere` runs on each form of a pattern. -/

theorem matchhere_nil (text : List UInt8) : matchhere [] text := by
  rw [matchhere]
  exact if_pos rfl

theorem matchhere_star {c : UInt8} (hc : c ≠ 0) (re text : List UInt8) :
    matchhere (c :: ch '*' :: re) text = matchstar c re text := by
  rw [matchhere]
  exact (if_neg hc).trans (if_pos rfl)

theorem matchhere_end (text : List UInt8) :
    matchhere [ch '$'] text = (chr text 0 == 0) := by
  rw [matchhere]
  rfl

theorem matchhere_one {c : UInt8} {re : List UInt8} (hc : c ≠ 0) (h1 : chr re 0 ≠ ch '*')
    (h2 : ¬(c = ch '$' ∧ chr re 0 = 0)) (text : List UInt8) :
    matchhere (c :: re) text =
      if chr text 0 ≠ 0 ∧ (c = ch '.' ∨ c = chr text 0) then matchhere re (text.drop 1)
      else false := by
  rw [matchhere]
  exact (if_neg hc).trans ((if_neg h1).trans (if_neg h2))

theorem matchhere_one_iff {c : UInt8} {re : List UInt8} (hr : 0 ∉ c :: re)
    (h1 : chr re 0 ≠ ch '*') (h2 : ¬(c = ch '$' ∧ re = []))
    (ih : ∀ t : List UInt8, 0 ∉ t → (matchhere re t ↔ Here re t)) {text : List UInt8}
    (ht : 0 ∉ text) : matchhere (c :: re) text ↔ Here (c :: re) text := by
  have hre : 0 ∉ re := fun h => hr (List.mem_cons_of_mem c h)
  rw [here_one h1 h2,
    matchhere_one (ne_zero_of_notMem hr) h1 fun h => h2 ⟨h.1, (chr_eq_zero hre).1 h.2⟩]
  cases text with
  | nil =>
    rw [if_neg fun h => h.1 rfl]
    exact iff_of_false Bool.false_ne_true fun ⟨b, t, h, _⟩ => nomatch h
  | cons b t =>
    have hi := ih t fun h => ht (List.mem_cons_of_mem b h)
    constructor
    · intro h
      split at h
      next hb => exact ⟨b, t, rfl, hb.2, hi.1 h⟩
      next => exact nomatch h
    · rintro ⟨b', t', hbt, hb, hh⟩
      obtain ⟨rfl, rfl⟩ := List.cons.inj hbt
      rw [if_pos ⟨ne_zero_of_notMem ht, hb⟩]
      exact hi.2 hh

theorem matchhere_iff {re : List UInt8} (hr : 0 ∉ re) {text : List UInt8} (ht : 0 ∉ text) :
    matchhere re text ↔ Here re text := by
  -- the recursion of `readItems`: a repetition takes two characters of the pattern
  induction re using readItems.induct generalizing text with
  | case1 => exact iff_of_true (matchhere_nil text) (here_nil text)
  | case2 =>
    rw [matchhere_end, here_end, beq_iff_eq]
    exact chr_eq_zero ht
  | case3 c hc =>
    apply matchhere_one_iff hr (by decide) (fun h => hc h.1) ?_ ht
    intro t _
    exact iff_of_true (matchhere_nil t) (here_nil t)
  | case4 c re ih =>
    have hre : 0 ∉ re := fun h => hr (List.mem_cons_of_mem _ (List.mem_cons_of_mem _ h))
    rw [matchhere_star (ne_zero_of_notMem hr), here_star]
    exact matchstar_iff (fun t ht => ih hre ht) ht
  | case5 c d re hd ih =>
    have hre : 0 ∉ d :: re := fun h => hr (List.mem_cons_of_mem _ h)
    exact matchhere_one_iff hr hd (fun h => nomatch h.2) (fun t ht => ih hre ht) ht

theorem matchAny_iff {re : List UInt8} (hr : 0 ∉ re) {text : List UInt8} (ht : 0 ∉ text) :
    matchAny re text ↔ ∃ before rest, text = before ++ rest ∧ Here re rest := by
  induction text with
  | nil =>
    rw [matchAny]
    constructor
    · intro h
      split at h
      next hh => exact ⟨[], [], rfl, (matchhere_iff hr ht).1 hh⟩
      next =>
        rw [if_neg fun h => h rfl] at h
        exact nomatch h
    · rintro ⟨before, rest, hbr, hh⟩
      rw [(List.append_eq_nil_iff.1 hbr.symm).2] at hh
      rw [if_pos ((matchhere_iff hr ht).2 hh)]
  | cons b t ih =>
    specialize ih fun h => ht (List.mem_cons_of_mem b h)
    have hb : chr (b :: t) 0 ≠ 0 := ne_zero_of_notMem ht
    rw [matchAny, if_pos hb]
    constructor
    · intro h
      split at h
      next hh => exact ⟨[], b :: t, rfl, (matchhere_iff hr ht).1 hh⟩
      next =>
        obtain ⟨before, rest, rfl, hh⟩ := ih.1 h
        exact ⟨b :: before, rest, rfl, hh⟩
    · rintro ⟨before, rest, hbr, hh⟩
      split
      next => rfl
      next hn =>
        cases before with
        | nil =>
          rw [List.nil_append] at hbr
          rw [← hbr] at hh
          exact absurd ((matchhere_iff hr ht).2 hh) hn
        | cons b' before =>
          obtain ⟨rfl, rfl⟩ := List.cons.inj hbr
          exact ih.2 ⟨before, rest, rfl, hh⟩

theorem accepts_iff {start : Bool} {re text : List UInt8} :
    (⟨start, (readItems re).1, (readItems re).2⟩ : Pattern).Accepts text ↔
      ∃ before rest, text = before ++ rest ∧ (start → before = []) ∧ Here re rest := by
  constructor
  · rintro ⟨before, part, after, rfl, hp, hs, ha⟩
    exact ⟨before, part ++ after, List.append_assoc _ _ _, hs, part, after, rfl, hp, ha⟩
  · rintro ⟨before, _, rfl, hs, part, after, rfl, hp, ha⟩
    exact ⟨before, part, after, (List.append_assoc _ _ _).symm, hp, hs, ha⟩

theorem chr_eq_start {re : List UInt8} : chr re 0 = ch '^' ↔ re.head? = some (ch '^') := by
  cases re with
  | nil => exact iff_of_false (by decide) (by decide)
  | cons c re => exact (Option.some_inj).symm

/-- `match` returns 1 exactly on the texts with a part in the language of the pattern. -/
theorem matchRe_decides {re text : List UInt8} (hr : 0 ∉ re) (ht : 0 ∉ text) :
    matchRe re text = true ↔ (readPattern re).Accepts text := by
  unfold matchRe readPattern
  by_cases h : chr re 0 = ch '^'
  · rw [if_pos h, if_pos (chr_eq_start.1 h), List.drop_one,
      matchhere_iff (fun h0 => hr (List.mem_of_mem_tail h0)) ht, accepts_iff]
    constructor
    · exact fun hh => ⟨[], text, rfl, fun _ => rfl, hh⟩
    · rintro ⟨before, rest, rfl, hs, hh⟩
      rw [hs rfl]
      exact hh
  · rw [if_neg h, if_neg fun h' => h (chr_eq_start.2 h'), matchAny_iff hr ht, accepts_iff]
    constructor
    · rintro ⟨before, rest, rfl, hh⟩
      exact ⟨before, rest, rfl, fun h => absurd h Bool.false_ne_true, hh⟩
    · rintro ⟨before, rest, rfl, -, hh⟩
      exact ⟨before, rest, rfl, hh⟩

/-- The pattern `*` on the text `a*`. -/
theorem matchRe_decides_star :
    matchRe [ch '*'] [ch 'a', ch '*'] = true ↔ (readPattern [ch '*']).Accepts [ch 'a', ch '*'] :=
  matchRe_decides (by decide) (by decide)

end Xv6.User.Grep
