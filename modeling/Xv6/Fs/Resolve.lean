import Xv6.Fs.Path

namespace Xv6.Fs

open Lib Prog

variable {n : Nat} [NeZero n]

namespace Store

variable (v : Store n)

def resolve : Fin n → List Str → Option (Fin n)
  | i, [] => some i
  | i, name :: rest => (v.lookup i name).bind fun j => resolve j rest

def visits : Fin n → List Str → List (Fin n)
  | _, [] => []
  | i, name :: rest =>
    i :: match v.lookup i name with
      | none => []
      | some j => if (v.addRef i 1).HasSlot j then visits j rest else []

def Clear (parent : Bool) : Fin n → List Str → Prop
  | _, [] => True
  | i, name :: rest =>
    v.locked i ∨ v.node i ≠ .free ∧
      (parent ∧ rest = [] ∨
        ∀ j, v.lookup i name = some j → (v.addRef i 1).HasSlot j ∧ Clear parent j rest)

def Reaches (i : Fin n) (es : List Str) (j : Fin n) : Prop :=
  v.resolve i es = some j ∧ ∀ x ∈ v.visits i es, v.locked x = false

def visitsPath (cwd : Fin n) (path : Str) : List (Fin n) :=
  if isAbsolute path ∧ ¬ v.HasSlot rootino then [] else v.visits (start cwd path) (elems path)

def ClearPath (cwd : Fin n) (path : Str) (parent : Bool) : Prop :=
  ¬ (isAbsolute path ∧ ¬ v.HasSlot rootino) ∧ v.Clear parent (start cwd path) (elems path)

def ReachesPath (cwd : Fin n) (path : Str) (j : Fin n) : Prop :=
  v.Reaches (start cwd path) (elems path) j

end Store

variable {i j k : Fin n} {v w : Store n} {parent : Bool} {es : List Str} {cwd : Fin n} {path : Str}

theorem isDir_of_lookup (h : v.lookup i name = some j) : (v.node i).isDir := by
  obtain ⟨entries, off, hdir, -⟩ := lookup_eq_some h
  rw [hdir]
  rfl

omit [NeZero n] in
theorem ne_free_of_isDir (h : (v.node i).isDir) : v.node i ≠ .free := by
  intro hfree
  simp [hfree, Node.isDir] at h

theorem lookup_congr (h : w.node i = v.node i) : w.lookup i name = v.lookup i name := by
  rw [Store.lookup, Store.lookup, h]

theorem resolve_append :
    v.resolve i (es ++ fs) = (v.resolve i es).bind fun j => v.resolve j fs := by
  induction es generalizing i with
  | nil => rfl
  | cons name rest ih =>
    rw [List.cons_append, Store.resolve, Store.resolve, Option.bind_assoc]
    simp only [ih]

theorem walk_ilockHeld_iff :
    (∃ x, v.walk parent i es = .error (.ilockHeld x)) ↔ ∃ x ∈ v.visits i es, v.locked x := by
  induction es generalizing i with
  | nil => cases parent <;> cases hl : v.locked i <;> simp [Store.walk, Store.visits, hl]
  | cons name rest ih =>
    rw [Store.walk, Store.visits]
    cases hl : v.locked i with
    | true => simp [hl]
    | false =>
      simp only [List.mem_cons, exists_eq_or_imp, hl, Bool.false_eq_true, false_or, if_false]
      cases hlook : v.lookup i name with
      | none => split_ifs <;> simp
      | some j =>
        have hdir := isDir_of_lookup hlook
        rw [if_neg (ne_free_of_isDir hdir), if_neg (by simp [hdir])]
        by_cases hlast : parent ∧ rest = []
        · rw [if_pos hlast, hlast.2]
          simp [Store.visits]
        · rw [if_neg hlast]
          simp only
          by_cases hslot : (v.addRef i 1).HasSlot j
          · rw [if_pos hslot, if_pos hslot]
            exact ih
          · rw [if_neg hslot, if_neg hslot]
            simp

theorem walk_panic_iff :
    (∃ msg, v.walk parent i es = .error (.panic msg)) ↔ ¬ v.Clear parent i es := by
  induction es generalizing i with
  | nil => cases parent <;> cases hl : v.locked i <;> simp [Store.walk, Store.Clear, hl]
  | cons name rest ih =>
    rw [Store.walk, Store.Clear]
    cases hl : v.locked i with
    | true => simp
    | false =>
      simp only [Bool.false_eq_true, if_false, false_or]
      by_cases hn : v.node i = .free
      · simp [hn]
      · rw [if_neg hn]
        by_cases hdir : (v.node i).isDir = false
        · rw [if_pos hdir]
          have hnone : ∀ j, v.lookup i name ≠ some j := by
            intro j hj
            rw [isDir_of_lookup hj] at hdir
            cases hdir
          simp [hn, hnone]
        · rw [if_neg hdir]
          by_cases hlast : parent ∧ rest = []
          · rw [if_pos hlast]
            simp [hn, hlast]
          · rw [if_neg hlast]
            simp only [ne_eq, hn, not_false_eq_true, true_and, hlast, false_or]
            cases v.lookup i name with
            | none => simp
            | some j =>
              by_cases hslot : (v.addRef i 1).HasSlot j
              · simp only [if_pos hslot]
                rw [ih]
                simp [hslot]
              · simp [hslot]

theorem walk_cons_found
    (h : v.walk parent i (name :: es) = .ok (some r)) :
    v.locked i = false ∧ (parent ∧ es = [] ∧ r = (i, name) ∧ (v.node i).isDir ∨
      ∃ k, v.lookup i name = some k ∧ (v.addRef i 1).HasSlot k ∧ v.walk parent k es = .ok (some r)) := by
  rw [Store.walk] at h
  split at h
  case isTrue => cases h
  case isFalse hl =>
    refine ⟨by simpa using hl, ?_⟩
    split at h
    case isTrue => cases h
    case isFalse =>
      split at h
      case isTrue => cases h
      case isFalse hdir =>
        split at h
        case isTrue hlast =>
          cases h
          exact .inl ⟨hlast.1, hlast.2, rfl, by simpa using hdir⟩
        case isFalse =>
          cases hlook : v.lookup i name with
          | none =>
            rw [hlook] at h
            cases h
          | some k =>
            simp only [hlook] at h
            split at h
            case isTrue hslot => exact .inr ⟨k, rfl, hslot, h⟩
            case isFalse => cases h

theorem walk_reaches (h : v.walk false i es = .ok (some (j, m))) :
    m = [] ∧ v.Reaches i es j := by
  induction es generalizing i with
  | nil =>
    cases h
    exact ⟨rfl, rfl, by simp [Store.visits]⟩
  | cons name rest ih =>
    obtain ⟨hl, ⟨hparent, -⟩ | ⟨k, hlook, hslot, hrest⟩⟩ := walk_cons_found h
    · cases hparent
    · obtain ⟨hm, hres, hfree⟩ := ih hrest
      refine ⟨hm, ?_, ?_⟩
      · rw [Store.resolve, hlook]
        exact hres
      · rw [Store.visits, hlook]
        simp only [if_pos hslot]
        exact List.forall_mem_cons.mpr ⟨hl, hfree⟩

theorem walk_of_reaches (hclear : v.Clear false i es) (h : v.Reaches i es j) :
    v.walk false i es = .ok (some (j, [])) := by
  induction es generalizing i with
  | nil =>
    obtain ⟨hres, -⟩ := h
    cases hres
    rfl
  | cons name rest ih =>
    obtain ⟨hres, hfree⟩ := h
    obtain ⟨k, hlook, hrest⟩ := Option.bind_eq_some_iff.mp hres
    rw [Store.visits, hlook] at hfree
    obtain ⟨hl, hfree⟩ := List.forall_mem_cons.mp hfree
    have hdir := isDir_of_lookup hlook
    rw [Store.Clear, hl] at hclear
    obtain ⟨hn, hnext⟩ := hclear.resolve_left (by simp)
    obtain ⟨hslot, hclear⟩ := hnext.resolve_left (by simp) k hlook
    simp only [if_pos hslot] at hfree
    rw [Store.walk, hl, if_neg (by simp), if_neg hn, if_neg (by simp [hdir]), if_neg (by simp), hlook]
    simp only [if_pos hslot]
    exact ih hclear ⟨hrest, hfree⟩

section Path

theorem walkPath_eq (h : ¬ (isAbsolute path ∧ ¬ v.HasSlot rootino)) :
    v.walkPath cwd path parent = v.walk parent (Store.start cwd path) (elems path) := if_neg h

theorem walk_of_walkPath (h : v.walkPath cwd path parent = .ok r) :
    v.walk parent (Store.start cwd path) (elems path) = .ok r := by
  rw [Store.walkPath] at h
  split at h
  case isTrue => cases h
  case isFalse => exact h

theorem walkPath_ilockHeld_iff :
    (∃ x, v.walkPath cwd path parent = .error (.ilockHeld x)) ↔
      ∃ x ∈ v.visitsPath cwd path, v.locked x := by
  rw [Store.walkPath, Store.visitsPath]
  split
  case isTrue => simp
  case isFalse => exact walk_ilockHeld_iff

theorem walkPath_panic_iff :
    (∃ msg, v.walkPath cwd path parent = .error (.panic msg)) ↔ ¬ v.ClearPath cwd path parent := by
  rw [Store.walkPath, Store.ClearPath]
  split
  case isTrue h => simp [h]
  case isFalse h => rw [walk_panic_iff, not_and_or, not_not, or_iff_right h]

theorem walkPath_reaches (h : v.walkPath cwd path false = .ok (some (j, m))) :
    v.ReachesPath cwd path j :=
  (walk_reaches (walk_of_walkPath h)).2

theorem walkPath_of_reaches (hclear : v.ClearPath cwd path false) (h : v.ReachesPath cwd path j) :
    v.walkPath cwd path false = .ok (some (j, [])) :=
  (walkPath_eq hclear.1).trans (walk_of_reaches hclear.2 h)

end Path

section Agree

/-! A walk sees only inodes that are not locked, so a walk in `w` tells about any store that has
those inodes in common with `w`. -/

variable (hagree : ∀ x, w.locked x = false → w.node x = v.node x)

include hagree in
theorem resolve_of_walk (h : w.walk false i es = .ok (some (j, m))) :
    v.resolve i es = some j := by
  induction es generalizing i with
  | nil =>
    cases h
    rfl
  | cons name rest ih =>
    obtain ⟨hl, ⟨hparent, -⟩ | ⟨k, hlook, -, hrest⟩⟩ := walk_cons_found h
    · cases hparent
    · rw [Store.resolve, ← lookup_congr (hagree i hl), hlook]
      exact ih hrest

include hagree in
theorem resolve_eq_none_of_walk (h : w.walk false i es = .ok none) : v.resolve i es = none := by
  induction es generalizing i with
  | nil => cases h
  | cons name rest ih =>
    rw [Store.walk] at h
    split at h
    case isTrue => cases h
    case isFalse hl =>
      have hlook : w.lookup i name = v.lookup i name := lookup_congr (hagree i (by simpa using hl))
      rw [Store.resolve, ← hlook]
      cases hnext : w.lookup i name with
      | none => rfl
      | some j =>
        have hdir := isDir_of_lookup hnext
        rw [if_neg (ne_free_of_isDir hdir), if_neg (by simp [hdir]), if_neg (by simp), hnext] at h
        simp only at h
        split at h
        case isTrue => exact ih h
        case isFalse => cases h

include hagree in
theorem resolve_of_walk_parent (h : w.walk true i es = .ok (some (j, name))) :
    ∃ init, es = init ++ [name] ∧ v.resolve i init = some j ∧ w.locked j = false := by
  induction es generalizing i with
  | nil =>
    rw [Store.walk, if_pos rfl] at h
    split at h <;> cases h
  | cons name' rest ih =>
    obtain ⟨hl, ⟨-, hlast, hr, -⟩ | ⟨k, hlook, -, hrest⟩⟩ := walk_cons_found h
    · cases hr
      exact ⟨[], by rw [hlast]; rfl, rfl, hl⟩
    · obtain ⟨init, hinit, hres, hfree⟩ := ih hrest
      refine ⟨name' :: init, by rw [hinit]; rfl, ?_, hfree⟩
      rw [Store.resolve, ← lookup_congr (hagree i hl), hlook]
      exact hres

include hagree in
theorem walk_parent_ne_none (hres : v.resolve i es = some j) (hj : w.locked j) :
    w.walk true i es ≠ .ok none := by
  intro h
  induction es generalizing i with
  | nil =>
    cases hres
    simp [Store.walk, hj] at h
  | cons name rest ih =>
    obtain ⟨k, hlook, hrest⟩ := Option.bind_eq_some_iff.mp hres
    rw [Store.walk] at h
    split at h
    case isTrue => cases h
    case isFalse hl =>
      have hnode := hagree i (by simpa using hl)
      have hdir : (w.node i).isDir := hnode ▸ isDir_of_lookup hlook
      rw [if_neg (ne_free_of_isDir hdir), if_neg (by simp [hdir]), lookup_congr hnode, hlook] at h
      simp only at h
      split at h
      case isTrue => cases h
      case isFalse =>
        split at h
        case isTrue => exact ih hrest h
        case isFalse => cases h

end Agree

end Xv6.Fs
