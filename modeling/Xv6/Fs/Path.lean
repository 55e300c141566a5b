import Xv6.Fs.Held

/-!
# Path names

`skipelem` splits a path into its elements, and `namex` looks them up one after the other. `namei`
is the fold of the lookups over all elements; `nameiparent` leaves out the last one and returns it as
a name. `namex` holds one reference at every step, and two while it looks up an element.
-/

namespace Xv6.Fs

open Xv6.Threads

/-! ## Path elements -/

/-- The maximal runs of characters other than slashes. -/
def runs (path : List UInt8) : List Name := (path.splitOnP (· == slash)).filter (· ≠ [])

/-- The elements of a path, as directories store them. -/
def elements (path : List UInt8) : List Name := (runs path).map (List.take dirsiz)

/-- The names that `skipelem` copies to the buffer `name`, one after the other, until it returns 0.
The last argument bounds their number. -/
def skipelems (path : List UInt8) (name : Name) : ℕ → List Name
  | 0 => []
  | fuel + 1 =>
    match skipelem path name with
    | none => []
    | some (name, rest) => name :: skipelems rest name fuel

variable {path rest : List UInt8} {name : Name}

theorem runs_nil : runs [] = [] := by simp [runs]

theorem runs_slash (path : List UInt8) : runs (slash :: path) = runs path := by
  unfold runs
  rw [List.splitOnP_cons_eq_if_modifyHead, if_pos (by simp), List.filter_cons_of_neg (by simp)]

theorem runs_dropSlashes (path : List UInt8) : runs (path.dropWhile (· == slash)) = runs path := by
  induction path with
  | nil => rfl
  | cons x path ih =>
    by_cases hx : x = slash
    · rw [hx, List.dropWhile_cons_of_pos (by simp), runs_slash, ih]
    · rw [List.dropWhile_cons_of_neg (by simpa using hx)]

/-- The first run of a path that does not begin with a slash. -/
theorem runs_cons {x : UInt8} (hx : x ≠ slash) (path : List UInt8) :
    runs (x :: path) = (x :: path).takeWhile (· != slash) ::
      runs ((x :: path).dropWhile (· != slash)) := by
  have hne : (x :: path).takeWhile (· != slash) ≠ [] := by
    rw [List.takeWhile_cons_of_pos (by simpa using hx)]
    exact List.cons_ne_nil _ _
  have hmem : ∀ y ∈ (x :: path).takeWhile (· != slash), (y == slash) = false := by
    intro y hy
    simpa using List.mem_takeWhile_imp hy
  conv_lhs => rw [← List.takeWhile_append_dropWhile (p := (· != slash)) (l := x :: path)]
  cases hd : (x :: path).dropWhile (· != slash) with
  | nil =>
    unfold runs
    rw [List.append_nil, List.splitOnP_eq_singleton hmem, List.filter_cons_of_pos (by simpa using hne)]
    simp
  | cons y l =>
    have hy : y = slash := by
      have hne' : (x :: path).dropWhile (· != slash) ≠ [] := by
        rw [hd]
        exact List.cons_ne_nil _ _
      have := List.head_dropWhile_not (· != slash) hne'
      simpa [hd] using this
    rw [hy, runs_slash]
    unfold runs
    rw [List.splitOnP_append_cons_of_forall_mem hmem _ (by simp),
      List.filter_cons_of_pos (by simpa using hne)]

theorem runs_eq_nil (h : path.head? ≠ some slash) : runs path = [] ↔ path = [] := by
  cases path with
  | nil => simp [runs_nil]
  | cons x path =>
    have hx : x ≠ slash := fun hc => h (by rw [hc]; rfl)
    rw [runs_cons hx]
    simp

theorem head_dropSlashes (path : List UInt8) :
    (path.dropWhile (· == slash)).head? ≠ some slash := by
  intro h
  have hne : path.dropWhile (· == slash) ≠ [] := by
    intro hnil
    rw [hnil] at h
    cases h
  have := List.head_dropWhile_not (· == slash) hne
  rw [List.head?_eq_some_head hne] at h
  rw [Option.some.inj h] at this
  simp at this

/-- `skipelem` takes the first run off the path. -/
inductive Skips (path : List UInt8) (name : Name) : Option (Name × List UInt8) → Prop where
  | none (h : runs path = []) : Skips path name none
  | some {elem : Name} {rest : List UInt8} (h : runs path = elem :: runs rest)
      (hlen : rest.length < path.length) (hsub : rest ⊆ path) (helem : elem ⊆ path)
      (hrest : rest = [] ↔ runs rest = []) : Skips path name (some (copyElem elem name, rest))

theorem skipelem_skips (path : List UInt8) (name : Name) : Skips path name (skipelem path name) := by
  have hdrop : path.dropWhile (· == slash) ⊆ path := List.dropWhile_subset _
  have hle : (path.dropWhile (· == slash)).length ≤ path.length := List.length_dropWhile_le _ _
  have hhead := head_dropSlashes path
  have hruns := runs_dropSlashes path
  unfold skipelem
  cases hd : path.dropWhile (· == slash) with
  | nil =>
    rw [hd, runs_nil] at hruns
    exact .none hruns.symm
  | cons x l =>
    rw [hd] at hdrop hle hhead hruns
    have hx : x ≠ slash := fun hc => hhead (by rw [hc]; rfl)
    rw [runs_cons hx] at hruns
    have htl : ((x :: l).dropWhile (· != slash)).length ≤ l.length := by
      rw [List.dropWhile_cons_of_pos (by simpa using hx)]
      exact List.length_dropWhile_le _ _
    have hlt := List.length_dropWhile_le (· == slash) ((x :: l).dropWhile (· != slash))
    refine .some ?_ ?_ ?_ ?_ ?_
    · rw [← hruns, runs_dropSlashes]
    · rw [List.length_cons] at hle
      omega
    · exact fun y hy => hdrop (List.dropWhile_subset _ (List.dropWhile_subset _ hy))
    · exact fun y hy => hdrop (List.takeWhile_subset _ hy)
    · exact (runs_eq_nil (head_dropSlashes _)).symm

theorem upToNul_of_notMem {l : List UInt8} (h : (0 : UInt8) ∉ l) (n : ℕ) :
    upToNul l n = l.take n := by
  unfold upToNul
  rw [List.takeWhile_eq_self_iff]
  intro x hx
  have hne : x ≠ 0 := fun hc => h (hc ▸ List.mem_of_mem_take hx)
  simpa using hne

/-- The buffer holds the element, whatever it held before. -/
theorem key_copyElem {elem : Name} (h : (0 : UInt8) ∉ elem) (name : Name) :
    key (copyElem elem name) = elem.take dirsiz := by
  unfold copyElem key
  split_ifs with hlen
  · rw [upToNul_of_notMem fun hc => h (List.mem_of_mem_take hc), List.take_take, min_self]
  · have hlt : elem.length < dirsiz := by omega
    have hall : ∀ x ∈ elem, decide (x ≠ 0) := by
      intro x hx
      have hne : x ≠ 0 := fun hc => h (hc ▸ hx)
      simpa using hne
    obtain ⟨n, hn⟩ : ∃ n, dirsiz - elem.length = n + 1 := ⟨dirsiz - elem.length - 1, by omega⟩
    unfold upToNul
    rw [List.take_append, List.take_of_length_le hlt.le, hn, List.take_succ_cons,
      List.takeWhile_append_of_pos hall, List.takeWhile_cons_of_neg (by simp), List.append_nil]

theorem key_take {elem : Name} (h : (0 : UInt8) ∉ elem) : key (elem.take dirsiz) = elem.take dirsiz := by
  unfold key
  rw [upToNul_of_notMem fun hc => h (List.mem_of_mem_take hc), List.take_take, min_self]

theorem elements_cons {elem : Name} (h : runs path = elem :: runs rest) :
    elements path = elem.take dirsiz :: elements rest := by
  unfold elements
  rw [h, List.map_cons]

theorem elements_eq_nil : elements path = [] ↔ runs path = [] := by
  unfold elements
  exact List.map_eq_nil_iff

/-- Iterating `skipelem` gives the elements of the path. -/
theorem skipelems_eq (fuel : ℕ) : ∀ {path : List UInt8} {name : Name}, path.length < fuel →
    (0 : UInt8) ∉ path → (skipelems path name fuel).map key = elements path := by
  induction fuel with
  | zero => exact fun hlt => absurd hlt (Nat.not_lt_zero _)
  | succ fuel ih =>
    intro path name hlt h0
    unfold skipelems
    have hskip := skipelem_skips path name
    cases hs : skipelem path name with
    | none =>
      rw [hs] at hskip
      cases hskip with
      | none h => exact (elements_eq_nil.2 h).symm
    | some r =>
      obtain ⟨nm, rest⟩ := r
      rw [hs] at hskip
      cases hskip with
      | some h hlen hsub helem hrest =>
        show key _ :: (skipelems rest _ fuel).map key = _
        rw [ih (by omega) fun hc => h0 (hsub hc), key_copyElem fun hc => h0 (helem hc),
          elements_cons h]

/-! ## The walk -/

/-- The inode that directory `i` gives for a name. -/
def View.step (v : View) (i : ℕ) (name : Name) : Option ℕ :=
  if (v.din i).type = .dir then lookup (v.dir i) name else none

/-- The names are looked up one after the other, from inode `i` on. -/
def View.walk (v : View) (i : ℕ) (names : List Name) : Option ℕ := names.foldlM v.step i

/-- The directory in which the last name is to be looked up, and that name. -/
def View.walkParent (v : View) (i : ℕ) (names : List Name) : Option (ℕ × Name) :=
  names.getLast?.bind fun last =>
    (v.walk i names.dropLast).bind fun d => if (v.din d).type = .dir then some (d, last) else none

section walk

variable {v : View} {i : ℕ}

theorem walk_cons (n : Name) (ns : List Name) :
    v.walk i (n :: ns) = (v.step i n).bind fun j => v.walk j ns := List.foldlM_cons

theorem walk_concat (ns : List Name) (n : Name) :
    v.walk i (ns ++ [n]) = (v.walk i ns).bind fun d => v.step d n := by
  show List.foldlM v.step i (ns ++ [n]) = _
  rw [List.foldlM_append]
  show ((v.walk i ns).bind fun d => v.walk d [n]) = _
  congr 1
  funext d
  rw [walk_cons]
  cases v.step d n <;> rfl

theorem walkParent_nil : v.walkParent i [] = none := rfl

theorem walkParent_single (n : Name) :
    v.walkParent i [n] = if (v.din i).type = .dir then some (i, n) else none := rfl

theorem walkParent_cons (n : Name) {ns : List Name} (h : ns ≠ []) :
    v.walkParent i (n :: ns) = (v.step i n).bind fun j => v.walkParent j ns := by
  obtain ⟨m, ms, rfl⟩ := List.exists_cons_of_ne_nil h
  unfold View.walkParent
  rw [List.getLast?_cons_cons, List.dropLast_cons_cons, walk_cons]
  cases v.step i n with
  | none => cases (m :: ms).getLast? <;> rfl
  | some j => rfl

theorem walkParent_dir {ns : List Name} {d : ℕ × Name} (h : v.walkParent i ns = some d) :
    (v.din d.1).type = .dir := by
  obtain ⟨last, -, h⟩ := Option.bind_eq_some_iff.1 h
  obtain ⟨j, -, h⟩ := Option.bind_eq_some_iff.1 h
  split_ifs at h with hdir
  obtain rfl := Option.some.inj h
  exact hdir

/-- The walk is a lookup in the parent directory. -/
theorem walk_eq_parent {ns : List Name} (h : ns ≠ []) :
    v.walk i ns = (v.walkParent i ns).bind fun d => lookup (v.dir d.1) d.2 := by
  obtain ⟨ms, m, rfl⟩ : ∃ ms m, ns = ms ++ [m] :=
    ⟨ns.dropLast, ns.getLast h, (List.dropLast_append_getLast h).symm⟩
  unfold View.walkParent
  rw [walk_concat, List.getLast?_concat, List.dropLast_concat]
  cases v.walk i ms with
  | none => rfl
  | some d =>
    show v.step d m = (if (v.din d).type = .dir then some (d, m) else none).bind _
    unfold View.step
    split_ifs <;> rfl

/-- What `namex` looks for: the inode, or its parent directory and the last name. -/
def View.resolve (v : View) (parent : Bool) (i : ℕ) (names : List Name) : Option (ℕ × Option Name) :=
  if parent then (v.walkParent i names).map fun d => (d.1, some d.2)
  else (v.walk i names).map fun j => (j, none)

theorem step_dir {n : Name} (h : (v.din i).type = .dir) : v.step i n = lookup (v.dir i) n := if_pos h

theorem step_not_dir {n : Name} (h : (v.din i).type ≠ .dir) : v.step i n = none := if_neg h

theorem resolve_cons {parent : Bool} (n : Name) {ns : List Name} (h : ¬ (parent ∧ ns = [])) :
    v.resolve parent i (n :: ns) = (v.step i n).bind fun j => v.resolve parent j ns := by
  unfold View.resolve
  cases parent with
  | true =>
    rw [if_pos rfl, walkParent_cons n fun hc => h ⟨rfl, hc⟩, Option.map_bind]
    rfl
  | false =>
    rw [if_neg Bool.false_ne_true, walk_cons, Option.map_bind]
    rfl

theorem resolve_not_dir {parent : Bool} (h : (v.din i).type ≠ .dir) (n : Name) (ns : List Name) :
    v.resolve parent i (n :: ns) = none := by
  by_cases hlast : parent ∧ ns = []
  · rw [hlast.1, hlast.2]
    unfold View.resolve
    rw [if_pos rfl, walkParent_single, if_neg h]
    rfl
  · rw [resolve_cons n hlast, step_not_dir h]
    rfl

theorem step_live {sb : Sb} (hv : Sound sb v) {n : Name} {j : ℕ} (h : v.step i n = some j) :
    v.Live j := by
  unfold View.step at h
  split_ifs at h with hdir
  obtain ⟨x, de, hx, his, rfl⟩ := (lookup_eq_some (hv.unique i hdir)).1 h
  exact hv.entry i hdir de (List.mem_of_getElem? hx) his.1

/-- The walk leads to allocated inodes. -/
theorem walk_live {sb : Sb} (hv : Sound sb v) {ns : List Name} {j : ℕ} (hi : v.Live i)
    (h : v.walk i ns = some j) : v.Live j := by
  induction ns generalizing i with
  | nil =>
    obtain rfl := Option.some.inj h
    exact hi
  | cons n ns ih =>
    rw [walk_cons] at h
    obtain ⟨d, hd, h⟩ := Option.bind_eq_some_iff.1 h
    exact ih (step_live hv hd) h

end walk

theorem lookup_congr {es : List Dirent} {a b : Name} (h : key a = key b) : lookup es a = lookup es b := by
  unfold lookup
  congr 2
  funext de
  rw [decide_eq_decide, is_iff, is_iff, h]

/-! ## Lookups with references in hand -/

variable {T : Type} {V : Env T} {sb : Sb} {ly : Layout} {t : T} {L : Finset ℕ} {s : St T V.X}
  {tab : SlotId → Inode T} {c : SlotId → ℕ} {Λ : Finset SlotId} {k : SlotId}

/-- What `dirlookup` returns: nothing, or the entry of the inode that the directory gives for the
name, to which there is one more reference. -/
structure Looked (t : T) (tab : SlotId → Inode T) (c : SlotId → ℕ) (Λ : Finset SlotId) (s : St T V.X)
    (k : SlotId) (name : Name) (r : Option (SlotId × ℕ)) (s' : St T V.X) : Prop where
  absent : r = none → lookup (s.disk.dir (s.inode k).inum) name = none ∧ Held t tab c Λ s'
  found : ∀ l j, r = some (l, j) → Held t tab (c + Pi.single l 1) Λ s' ∧
    lookup (s.disk.dir (s.inode k).inum) name = some (s'.inode l).inum ∧
    ∃ de, (s.disk.dir (s.inode k).inum)[j]? = some de ∧ de.Is name
  inum : ∀ l, 0 < (s.inode l).ref → (s'.inode l).inum = (s.inode l).inum
  only : OnlyTable s s'

variable [DecidableEq T]

theorem dirlookup_held (h : Held t tab c Λ s) (hv : Sound sb s.disk)
    (hdir : (s.din (s.inode k).inum).type = .dir) (name : Name) :
    Goes sb ly t (dirlookup sb (s.ip k) name) s L
      (fun r s' L' => Looked t tab c Λ s k name r.1 s' ∧ r.2 = s.ip k ∧ L' = L)
      fun m s' => m = "iget: no inodes" ∧ s' = s ∧ ∀ k, (s.inode k).ref ≠ 0 := by
  have hd : s.dir (s.ip k) = s.disk.dir (s.inode k).inum := dir_ip
  have hu : Unique (s.disk.dir (s.inode k).inum) := hv.unique _ hdir
  refine dirlookup_goes (hv.isDir hdir) h.reading (fun hnone => ?_) fun j de hde his => ?_
  · rw [hd] at hnone
    exact ⟨⟨fun _ => ⟨hnone, h⟩, fun _ _ hc => (by cases hc), fun _ _ => rfl, .refl s⟩, rfl, rfl⟩
  · rw [hd] at hde
    have hlive := hv.entry _ hdir de (List.mem_of_getElem? hde) his.1
    refine (iget_held h hlive).mono ?_ fun m s' hE => hE
    rintro l s' L' ⟨hh, hi, hkeep, ho, rfl⟩
    refine ⟨⟨fun hc => (by cases hc), ?_, hkeep, ho⟩, rfl, rfl⟩
    rintro l' j' hr
    obtain ⟨rfl, rfl⟩ := Prod.mk.inj (Option.some.inj hr)
    refine ⟨hh, ?_, de, hde, his⟩
    rw [hi]
    exact (lookup_eq_some hu).2 ⟨j, de, hde, his, rfl⟩

/-! ## `namex` -/

/-- The result of `namex` from inode `i` on. -/
structure Resolved (t : T) (tab : SlotId → Inode T) (c : SlotId → ℕ) (v : View) (parent : Bool)
    (i : ℕ) (names : List Name) (r : Option (SlotId × Name)) (s' : St T V.X) : Prop where
  held : Held t tab (c + hand (r.map Prod.fst)) ∅ s'
  result : (r.map fun x => ((s'.inode x.1).inum, if parent then some (key x.2) else none)) =
    v.resolve parent i names

/-- The inode table has one unused entry at most. -/
def Crowded (tab : SlotId → Inode T) (c : SlotId → ℕ) : Prop :=
  ∃ k, ∀ l ≠ k, (tab l).ref + c l ≠ 0

theorem namexFrom_goes {v : View} (hv : Sound sb v) (hkept : Kept tab v) (parent : Bool) (fuel : ℕ) :
    ∀ {s : St T V.X} {k : SlotId} {path : List UInt8} {name : Name}, path.length < fuel →
      (0 : UInt8) ∉ path → s.disk = v → Held t tab (c + Pi.single k 1) ∅ s →
      Goes sb ly t (namexFrom sb parent k path name fuel) s L
        (fun r s' L' => Resolved t tab c v parent (s.inode k).inum (elements path) r s' ∧
          OnlyTable s s' ∧ L' = L)
        fun m _ => m = "iget: no inodes" ∧ Crowded tab c := by
  induction fuel with
  | zero => exact fun hlt => absurd hlt (Nat.not_lt_zero _)
  | succ fuel ih =>
    intro s k path name hlt h0 hdisk hh
    have hskip := skipelem_skips path name
    unfold namexFrom
    cases hs : skipelem path name with
    | none =>
      rw [hs] at hskip
      cases hskip with
      | none hruns =>
        have hnil := elements_eq_nil.2 hruns
        cases parent with
        | true =>
          -- no element is left: `nameiparent` fails
          refine .bind ((iput_held hh (by rwa [hdisk]) (Finset.notMem_empty _)).goes.mono ?_
            fun _ _ hE => hE)
          rintro - s' L' ⟨hh', hi, ho, rfl⟩
          refine .ret ⟨⟨hh', ?_⟩, ho, rfl⟩
          rw [hnil]
          rfl
        | false =>
          refine .ret ⟨⟨hh, ?_⟩, .refl s, rfl⟩
          rw [hnil]
          rfl
    | some r =>
      obtain ⟨nm, rest⟩ := r
      rw [hs] at hskip
      cases hskip with
      | @some elem _ hruns hlen hsub helem hrest =>
        have helem0 : (0 : UInt8) ∉ elem := fun hc => h0 (helem hc)
        have hkey := key_copyElem helem0 name
        rw [elements_cons hruns]
        refine .bind ((ilock_held hh (Finset.notMem_empty _) hh.pos).goes.mono ?_ fun _ _ hE => hE)
        rintro ip s₁ L₁ ⟨rfl, hh₁, hi₁, ho₁, rfl⟩
        have hdisk₁ : s₁.disk = v := by rw [ho₁.disk, hdisk]
        have hkept₁ : Kept tab s₁.disk := by rwa [hdisk₁]
        have htype : (s.ip k).d.type = (v.din (s.inode k).inum).type := by rw [← hdisk]; rfl
        rw [← ip_congr (hi₁ k) ho₁.din] at htype ⊢
        have hmem : (s₁.ip k).slot ∈ insert k (∅ : Finset SlotId) := Finset.mem_insert_self _ _
        have herase : (insert k (∅ : Finset SlotId)).erase (s₁.ip k).slot = ∅ := by
          show (insert k (∅ : Finset SlotId)).erase k = ∅
          simp
        show Goes sb ly t (if (s₁.ip k).d.type ≠ .dir then _ else if parent ∧ rest = [] then _
          else _) s₁ L₁ _ _
        by_cases hdir : (v.din (s.inode k).inum).type = .dir
        · rw [if_neg (by rw [htype]; exact not_not.2 hdir)]
          by_cases hlast : parent ∧ rest = []
          · -- stop one level early
            rw [if_pos hlast]
            refine .bind ((iunlock_held hh₁ hmem rfl).goes.mono ?_ fun _ _ hE => hE)
            rintro - s₂ L₂ ⟨hh₂, hi₂, -, ho₂, rfl⟩
            rw [herase] at hh₂
            refine .ret ⟨⟨hh₂, ?_⟩, ho₁.trans ho₂, rfl⟩
            have hnil : elements rest = [] := elements_eq_nil.2 (hrest.1 hlast.2)
            unfold View.resolve
            rw [if_pos hlast.1, hnil, walkParent_single, if_pos hdir, Option.map_some, Option.map_some,
              if_pos hlast.1, hi₂, hi₁, hkey]
          · rw [if_neg hlast]
            have hdir₁ : (s₁.din (s₁.inode k).inum).type = .dir := by
              rw [hi₁]
              rw [← hdisk₁] at hdir
              exact hdir
            -- the element is looked up in the directory
            have hres : ∀ {o : Option ℕ}, lookup (s₁.disk.dir (s₁.inode k).inum)
                (copyElem elem name) = o →
                v.resolve parent (s.inode k).inum (elem.take dirsiz :: elements rest) =
                  o.bind fun j => v.resolve parent j (elements rest) := by
              rintro o rfl
              have hne : ¬ (parent ∧ elements rest = []) := fun hc =>
                hlast ⟨hc.1, hrest.2 (elements_eq_nil.1 hc.2)⟩
              rw [resolve_cons _ hne, step_dir hdir, hi₁, hdisk₁,
                lookup_congr ((key_take helem0).trans hkey.symm)]
            refine .bind ((dirlookup_held hh₁ (by rwa [hdisk₁]) hdir₁ (copyElem elem name)).mono ?_ ?_)
            · rintro ⟨found, ip⟩ s₂ L₂ ⟨hlk, rfl, rfl⟩
              have hip₂ : s₁.ip k = s₂.ip k := (ip_congr (hlk.inum k hh₁.pos) hlk.only.din).symm
              have hkept₂ : Kept tab s₂.disk := by rwa [hlk.only.disk]
              cases found with
              | none =>
                obtain ⟨hnone, hh₂⟩ := hlk.absent rfl
                refine .bind ((iunlockput_held hh₂ hkept₂ hmem hip₂).goes.mono ?_ fun _ _ hE => hE)
                rintro - s₃ L₃ ⟨hh₃, hi₃, ho₃, rfl⟩
                rw [herase] at hh₃
                refine .ret ⟨⟨hh₃, ?_⟩, (ho₁.trans hlk.only).trans ho₃, rfl⟩
                rw [hres hnone]
                rfl
              | some x =>
                obtain ⟨l, j⟩ := x
                obtain ⟨hh₂, hsome, -⟩ := hlk.found l j rfl
                rw [add_right_comm] at hh₂
                refine .bind ((iunlockput_held hh₂ hkept₂ hmem hip₂).goes.mono ?_ fun _ _ hE => hE)
                rintro - s₃ L₃ ⟨hh₃, hi₃, ho₃, rfl⟩
                rw [herase] at hh₃
                have ho := (ho₁.trans hlk.only).trans ho₃
                have hdisk₃ : s₃.disk = v := by rw [ho.disk, hdisk]
                refine (ih (by omega) (fun hc => h0 (hsub hc)) hdisk₃ hh₃).mono ?_ fun _ _ hE => hE
                rintro r s₄ L₄ ⟨hr, ho₄, rfl⟩
                refine ⟨⟨hr.held, ?_⟩, ho.trans ho₄, rfl⟩
                rw [hr.result, hres hsome, hi₃]
                rfl
            · rintro m s' ⟨rfl, -, hfull⟩
              refine ⟨rfl, k, fun l hl => ?_⟩
              have := hfull l
              rwa [hh₁.ref l, Pi.add_apply, Pi.single_eq_of_ne hl, Nat.add_zero] at this
        · rw [if_pos (by rw [htype]; exact hdir)]
          refine .bind ((iunlockput_held hh₁ hkept₁ hmem rfl).goes.mono ?_ fun _ _ hE => hE)
          rintro - s₂ L₂ ⟨hh₂, hi₂, ho₂, rfl⟩
          rw [herase] at hh₂
          refine .ret ⟨⟨hh₂, ?_⟩, ho₁.trans ho₂, rfl⟩
          rw [resolve_not_dir hdir]
          rfl

/-- The inode from which `namex` starts. -/
def St.start {X : Type} (s : St T X) (cwd : SlotId) (path : List UInt8) : ℕ :=
  if path.head? = some slash then rootIno else (s.inode cwd).inum

theorem start_live {s : St T V.X} (h : Held t tab c Λ s) (hv : Sound sb s.disk) {cwd : SlotId}
    (hcwd : 0 < (s.inode cwd).ref) (path : List UInt8) : s.disk.Live (s.start cwd path) := by
  unfold St.start
  split_ifs
  · exact live_of_dir hv.root
  · exact h.live cwd hcwd

theorem namex_goes (h : Held t tab c ∅ s) (hv : Sound sb s.disk) (hkept : Kept tab s.disk)
    {cwd : SlotId} (hcwd : 0 < (s.inode cwd).ref) {path : List UInt8} (h0 : (0 : UInt8) ∉ path)
    (parent : Bool) (name : Name) :
    Goes sb ly t (namex sb cwd parent path name) s L
      (fun r s' L' => Resolved t tab c s.disk parent (s.start cwd path) (elements path) r s' ∧
        OnlyTable s s' ∧ L' = L)
      fun m _ => m = "iget: no inodes" ∧ Crowded tab c := by
  have hloop : ∀ {k : SlotId} {s₁ : St T V.X}, Held t tab (c + Pi.single k 1) ∅ s₁ → OnlyTable s s₁ →
      (s₁.inode k).inum = s.start cwd path →
      Goes sb ly t (namexFrom sb parent k path name (path.length + 1)) s₁ L
        (fun r s' L' => Resolved t tab c s.disk parent (s.start cwd path) (elements path) r s' ∧
          OnlyTable s s' ∧ L' = L)
        fun m _ => m = "iget: no inodes" ∧ Crowded tab c := by
    intro k s₁ hh ho hi
    refine (namexFrom_goes hv hkept parent _ (Nat.lt_succ_self _) h0 ho.disk hh).mono ?_
      fun _ _ hE => hE
    rintro r s' L' ⟨hr, ho', rfl⟩
    rw [hi] at hr
    exact ⟨hr, ho.trans ho', rfl⟩
  unfold namex
  by_cases hroot : path.head? = some slash
  · rw [if_pos hroot]
    refine .bind ((iget_held h (live_of_dir hv.root)).mono ?_ ?_)
    · rintro k s₁ L₁ ⟨hh, hi, -, ho, rfl⟩
      refine hloop hh ho ?_
      unfold St.start
      rw [if_pos hroot, hi]
    · rintro m s' ⟨rfl, -, hfull⟩
      refine ⟨rfl, cwd, fun l _ => ?_⟩
      rw [← h.ref l]
      exact hfull l
  · rw [if_neg hroot]
    refine .bind ((idup_held h hcwd).goes.mono ?_ fun _ _ hE => hE)
    rintro k s₁ L₁ ⟨rfl, hh, hi, ho, rfl⟩
    refine hloop hh ho ?_
    unfold St.start
    rw [if_neg hroot, hi]

/-- `namei` returns the inode to which the walk leads, with a reference to it. -/
theorem namei_goes (h : Held t tab c ∅ s) (hv : Sound sb s.disk) (hkept : Kept tab s.disk)
    {cwd : SlotId} (hcwd : 0 < (s.inode cwd).ref) {path : List UInt8} (h0 : (0 : UInt8) ∉ path)
    (name : Name) :
    Goes sb ly t (namei sb cwd path name) s L
      (fun r s' L' => Held t tab (c + hand r) ∅ s' ∧
        (r.map fun k => (s'.inode k).inum) = s.disk.walk (s.start cwd path) (elements path) ∧
        OnlyTable s s' ∧ L' = L)
      fun m _ => m = "iget: no inodes" ∧ Crowded tab c := by
  refine .bind ((namex_goes h hv hkept hcwd h0 false name).mono ?_ fun _ _ hE => hE)
  rintro r s' L' ⟨hr, ho, rfl⟩
  refine .ret ⟨hr.held, ?_, ho, rfl⟩
  have := congrArg (Option.map Prod.fst) hr.result
  unfold View.resolve at this
  rw [if_neg Bool.false_ne_true, Option.map_map, Option.map_map] at this
  rw [Option.map_map]
  exact this.trans Option.map_id'

/-- `nameiparent` returns the directory to which the walk leads, and the last name. -/
theorem nameiparent_goes (h : Held t tab c ∅ s) (hv : Sound sb s.disk) (hkept : Kept tab s.disk)
    {cwd : SlotId} (hcwd : 0 < (s.inode cwd).ref) {path : List UInt8} (h0 : (0 : UInt8) ∉ path)
    (name : Name) :
    Goes sb ly t (nameiparent sb cwd path name) s L
      (fun r s' L' => Held t tab (c + hand (r.map Prod.fst)) ∅ s' ∧
        (r.map fun x => ((s'.inode x.1).inum, key x.2)) =
          s.disk.walkParent (s.start cwd path) (elements path) ∧
        OnlyTable s s' ∧ L' = L)
      fun m _ => m = "iget: no inodes" ∧ Crowded tab c := by
  refine (namex_goes h hv hkept hcwd h0 true name).mono ?_ fun _ _ hE => hE
  rintro r s' L' ⟨hr, ho, rfl⟩
  refine ⟨hr.held, ?_, ho, rfl⟩
  have := congrArg (Option.map fun p : ℕ × Option Name => (p.1, p.2.getD [])) hr.result
  unfold View.resolve at this
  rw [if_pos rfl, Option.map_map, Option.map_map] at this
  exact this.trans Option.map_id'

/-! ## The law -/

theorem key_key (name : Name) : key (key name) = key name := by
  have h0 : (0 : UInt8) ∉ key name := by
    intro hc
    have := List.mem_takeWhile_imp hc
    simp at this
  have hlen : (key name).length ≤ dirsiz := by
    unfold key upToNul
    exact (List.takeWhile_sublist _).length_le.trans (List.length_take_le _ _)
  show upToNul (key name) dirsiz = key name
  rw [upToNul_of_notMem h0, List.take_of_length_le hlen]

/-- **Path resolution is the fold of component lookups.** `skipelem` yields the maximal runs of
characters other than slashes, cut to `dirsiz` bytes. `namei` looks them up one after the other, and
`nameiparent` all but the last, which it returns as the name; it fails if there is none. `namei`
succeeds with an inode if and only if `nameiparent` succeeds with a directory that maps the name to
it. A reference to the inode that is returned is gained, and nothing else changes. Neither of them
panics if the inode table has two unused entries. -/
theorem path_resolution (sb : Sb) (t : T) (s : St T V.X) (h : Quiet sb t s) (cwd : SlotId)
    (hcwd : 0 < (s.inode cwd).ref) (path : List UInt8) (hpath : (0 : UInt8) ∉ path) (name : Name) :
    (skipelems path name (path.length + 1)).map key = elements path ∧
    (∀ r s', solo (exec sb) t (namei sb cwd path name) s = some (r, s') →
      (r.map fun k => (s'.inode k).inum) = s.disk.walk (s.start cwd path) (elements path) ∧
      Gained sb t s s' (r.map fun k => (s'.inode k).inum)) ∧
    (∀ r s', solo (exec sb) t (nameiparent sb cwd path name) s = some (r, s') →
      (r.map fun x => ((s'.inode x.1).inum, key x.2)) =
        s.disk.walkParent (s.start cwd path) (elements path) ∧
      Gained sb t s s' (r.map fun x => (s'.inode x.1).inum)) ∧
    (elements path = [] → ∀ r s',
      solo (exec sb) t (nameiparent sb cwd path name) s = some (r, s') → r = none) ∧
    (elements path ≠ [] → ∀ r s₁ r' s₂,
      solo (exec sb) t (namei sb cwd path name) s = some (r, s₁) →
      solo (exec sb) t (nameiparent sb cwd path name) s = some (r', s₂) →
      ∀ i, (∃ k, r = some k ∧ (s₁.inode k).inum = i) ↔
        ∃ d last, r' = some (d, last) ∧ (s.din (s₂.inode d).inum).type = .dir ∧
          lookup (s.disk.dir (s₂.inode d).inum) last = some i) ∧
    ((∃ k l, k ≠ l ∧ (s.inode k).ref = 0 ∧ (s.inode l).ref = 0) →
      (∃ x, solo (exec sb) t (namei sb cwd path name) s = some x) ∧
        ∃ x, solo (exec sb) t (nameiparent sb cwd path name) s = some x) := by
  have hi : Goes sb ⟨0, 0⟩ t (namei sb cwd path name) s ∅ _ _ :=
    namei_goes h.held h.sound h.kept hcwd hpath name
  have hp : Goes sb ⟨0, 0⟩ t (nameiparent sb cwd path name) s ∅ _ _ :=
    nameiparent_goes h.held h.sound h.kept hcwd hpath name
  refine ⟨skipelems_eq _ (Nat.lt_succ_self _) hpath, fun r s' hs => ?_, fun r s' hs => ?_,
    fun hnil r s' hs => ?_, fun hne r s₁ r' s₂ hs₁ hs₂ i => ?_, ?_⟩
  · obtain ⟨-, hh, hr, ho, -⟩ := hi.solo hs
    exact ⟨hr, h.gained hh ho⟩
  · obtain ⟨-, hh, hr, ho, -⟩ := hp.solo hs
    have hg := h.gained hh ho
    rw [Option.map_map] at hg
    exact ⟨hr, hg⟩
  · obtain ⟨-, -, hr, -⟩ := hp.solo hs
    rw [hnil, walkParent_nil] at hr
    exact Option.map_eq_none_iff.1 hr
  · obtain ⟨-, -, hr, -⟩ := hi.solo hs₁
    obtain ⟨-, -, hr', -⟩ := hp.solo hs₂
    rw [walk_eq_parent hne, ← hr'] at hr
    have hlook : ∀ es name, lookup es (key name) = lookup es name := fun es name =>
      lookup_congr (key_key name)
    constructor
    · rintro ⟨k, rfl, rfl⟩
      obtain ⟨⟨d, last⟩, rfl, hl⟩ : ∃ x, r' = some x ∧
          lookup (s.disk.dir (s₂.inode x.1).inum) (key x.2) = some (s₁.inode k).inum := by
        cases r' with
        | none => cases hr
        | some x => exact ⟨x, rfl, hr.symm⟩
      refine ⟨d, last, rfl, walkParent_dir hr'.symm, ?_⟩
      rwa [hlook] at hl
    · rintro ⟨d, last, rfl, -, hl⟩
      cases r with
      | none =>
        have : none = lookup (s.disk.dir (s₂.inode d).inum) (key last) := hr
        rw [hlook, hl] at this
        cases this
      | some k =>
        have : some (s₁.inode k).inum = lookup (s.disk.dir (s₂.inode d).inum) (key last) := hr
        rw [hlook, hl] at this
        exact ⟨k, rfl, Option.some.inj this⟩
  · rintro ⟨k, l, hkl, hk, hl⟩
    have hroom : ¬ Crowded s.inode 0 := by
      rintro ⟨m, hm⟩
      by_cases hkm : k = m
      · exact hm l (fun hc => hkl (hkm.trans hc.symm)) (by simpa using hl)
      · exact hm k hkm (by simpa using hk)
    obtain ⟨r, s', -, hs, -⟩ := (hi.mono (fun _ _ _ hQ => hQ) fun _ _ hE => hroom hE.2).returns
    obtain ⟨r', s'', -, hs', -⟩ := (hp.mono (fun _ _ _ hQ => hQ) fun _ _ hE => hroom hE.2).returns
    exact ⟨⟨_, hs⟩, _, hs'⟩

/-- The root directory with two free entries, to which entry 0 of the inode table refers. -/
def atRoot : St Unit noTables.X :=
  { oneInode .dir 32 with
    inode := fun k => ⟨1, if k.val = 0 then 1 else 0, none, false, .fresh .free⟩ }

theorem atRoot_live {i : ℕ} (h : atRoot.disk.Live i) : i = 1 := by
  by_contra hi
  apply h
  show (if i = 1 then _ else Dinode.fresh .free).type = .free
  rw [if_neg hi]
  rfl

theorem atRoot_quiet : Quiet (V := noTables) smallDisk () atRoot where
  sound := by
    have hview : (oneInode .dir 32).view (theInode .dir 32) = atRoot.disk := view_eq_disk rfl
    have hdir : atRoot.disk.dir 1 = [⟨0, List.replicate 14 0⟩, ⟨0, List.replicate 14 0⟩] := rfl
    have hfree : ∀ i, (atRoot.disk.din i).type = .dir → ∀ de ∈ atRoot.disk.dir i, de.inum = 0 := by
      intro i hi de hde
      rw [atRoot_live (live_of_dir hi), hdir] at hde
      simp at hde
      rw [hde]
    refine ⟨?_, fun i hi => ?_, fun i hi => ?_, fun i hi => ?_, fun i hi de hde h0 => ?_, rfl⟩
    · rw [← hview]
      exact oneInode_wf
    · rw [atRoot_live hi, ← hview]
      exact oneInode_filled (by decide)
    · rw [atRoot_live (live_of_dir hi)]
      rfl
    · intro x y de de' hx _ h0
      exact absurd (hfree i hi de (List.mem_of_getElem? hx)) h0
    · exact absurd (hfree i hi de hde) h0
  held := by
    have hused : ∀ k : SlotId, 0 < (atRoot.inode k).ref → k.val = 0 := by
      intro k hk
      by_contra hne
      have : (0 : ℤ) < if k.val = 0 then 1 else 0 := hk
      rw [if_neg hne] at this
      omega
    refine ⟨fun k => ?_, fun k => by simp, fun _ _ => rfl, fun k => rfl, fun k hk => ?_,
      fun k l hk hl _ => ?_, fun k _ => ?_, fun k _ _ hv => ?_, rfl⟩
    · show (0 : ℤ) ≤ if k.val = 0 then 1 else 0
      split_ifs <;> omega
    · exact absurd hk (Finset.notMem_empty _)
    · exact Fin.ext ((hused k hk).trans (hused l hl).symm)
    · show (atRoot.din 1).type ≠ .free
      decide
    · exact absurd hv Bool.false_ne_true
  kept i hi := by
    rw [atRoot_live hi]
    left
    decide

/-- `namei("/a")` returns: there are unused entries in the table. -/
theorem path_resolution_atRoot :
    ∃ x, solo (exec smallDisk) () (namei (V := noTables) smallDisk ⟨0, by decide⟩ [slash, 97] [])
      atRoot = some x :=
  ((path_resolution smallDisk () atRoot atRoot_quiet ⟨0, by decide⟩ (by decide) [slash, 97]
    (by decide) []).2.2.2.2.2 ⟨⟨1, by decide⟩, ⟨2, by decide⟩, by decide, rfl, rfl⟩).1

end Xv6.Fs
