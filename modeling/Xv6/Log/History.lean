import Xv6.Log.Model

/-!
# What a history says

The histories of `St.hist` are lists of events, newest first. This file reads off them the commit
groups, the pinned blocks, and the contents that clients and the disk should see.
-/

namespace Xv6.Log

/-- The blocks that a group of operations logged, with their last contents. -/
abbrev Group := ℕ → Option Block

/-- The group that is being collected: the blocks logged since the last group was closed. A store
to a block that the group already has changes the group, with or without another `log_write`. -/
def openGroup : List Event → Group
  | [] => fun _ => none
  | .logw _ b d :: h => Function.update (openGroup h) b (some d)
  | .store _ b d :: h =>
    if (openGroup h b).isSome then Function.update (openGroup h) b (some d) else openGroup h
  | .closed :: _ => fun _ => none
  | _ :: h => openGroup h

/-- The closed groups, newest first. -/
def groups : List Event → List Group
  | [] => []
  | .closed :: h => openGroup h :: groups h
  | _ :: h => groups h

/-- The number of times that `commit` returned. -/
def commits : List Event → ℕ
  | [] => 0
  | .committed :: h => commits h + 1
  | _ :: h => commits h

/-- A disk with one group written over it. -/
def applyGroup (g : Group) (d : ℕ → Block) : ℕ → Block := fun b => (g b).getD (d b)

/-- A disk with some groups, newest first, written over it in order. -/
def applyGroups : List Group → (ℕ → Block) → ℕ → Block
  | [], d => d
  | g :: gs, d => applyGroup g (applyGroups gs d)

/-- Operation `op` logged a block into group number `n`. -/
def WroteIn : List Event → ℕ → ℕ → Prop
  | [], _, _ => False
  | .logw o _ _ :: h, op, n => (o = op ∧ n = (groups h).length) ∨ WroteIn h op n
  | _ :: h, op, n => WroteIn h op n

/-- Block `b` is pinned: its last pin was not followed by an unpin. -/
def pinned : List Event → ℕ → Bool
  | [], _ => false
  | .pin b' :: h, b => if b = b' then true else pinned h b
  | .unpin b' :: h, b => if b = b' then false else pinned h b
  | _ :: h, b => pinned h b

/-- Block `b` was logged and not written to the disk since. -/
def uninstalled : List Event → ℕ → Bool
  | [], _ => false
  | .logw _ b' _ :: h, b => if b = b' then true else uninstalled h b
  | .wrote b' _ :: h, b => if b = b' then false else uninstalled h b
  | _ :: h, b => uninstalled h b

def pins : List Event → ℕ → ℕ
  | [], _ => 0
  | .pin b' :: h, b => if b = b' then pins h b + 1 else pins h b
  | _ :: h, b => pins h b

def unpins : List Event → ℕ → ℕ
  | [], _ => 0
  | .unpin b' :: h, b => if b = b' then unpins h b + 1 else unpins h b
  | _ :: h, b => unpins h b

/-- The contents of the blocks as of the last `log_write` of each, over the disk `d₀`. -/
def contents (d₀ : ℕ → Block) : List Event → ℕ → Block
  | [] => d₀
  | .logw _ b d :: h => Function.update (contents d₀ h) b d
  | _ :: h => contents d₀ h

/-- The contents of the blocks as of the last `bwrite` of each, over the disk `d₀`. -/
def written (d₀ : ℕ → Block) : List Event → ℕ → Block
  | [] => d₀
  | .wrote b d :: h => Function.update (written d₀ h) b d
  | _ :: h => written d₀ h

/-- Block `b` was modified after its last `log_write`. -/
def dirty : List Event → ℕ → Bool
  | [], _ => false
  | .store _ b' _ :: h, b => if b = b' then true else dirty h b
  | .logw _ b' _ :: h, b => if b = b' then false else dirty h b
  | _ :: h, b => dirty h b

/-- Every `bread` of the history returned the contents of the last `log_write` of its block, and
in the log area the contents of the disk. -/
def BreadsOk (start : ℕ) (d₀ : ℕ → Block) : List Event → Prop
  | [] => True
  | .bread b d :: h =>
    (d = if InLog start b then written d₀ h b else contents d₀ h b) ∧ BreadsOk start d₀ h
  | _ :: h => BreadsOk start d₀ h

/-! ## Groups -/

theorem applyGroup_some {g : Group} {b : ℕ} {x : Block} (h : g b = some x) (d : ℕ → Block) :
    applyGroup g d b = x := by
  unfold applyGroup; rw [h]; rfl

theorem applyGroup_none {g : Group} {b : ℕ} (h : g b = none) (d : ℕ → Block) :
    applyGroup g d b = d b := by
  unfold applyGroup; rw [h]; rfl

end Xv6.Log
