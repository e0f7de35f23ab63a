import Xv6.Fs.Sound

namespace Xv6.Fs

open Lib Prog

variable {n : Nat} [NeZero n]

def rootino : Fin n := 1

def namexEnd (parent : Bool) (ip : Fin n) : M n (Option (Fin n × Str)) :=
  if parent then do
    iput ip
    return none
  else return some (ip, [])

def namexNext (ip : Fin n) (name : Str) (loop : Fin n → M n (Option (Fin n × Str))) :
    M n (Option (Fin n × Str)) := do
  match ← dirlookup ip name with
  | none =>
    iunlockput ip
    return none
  | some (_, next) =>
    iunlockput ip
    loop next

/-- The loop of `namex`; it takes at most one turn for each byte of the path. -/
def namexLoop (parent : Bool) : Nat → Fin n → Str → M n (Option (Fin n × Str))
  | 0, ip, _ => namexEnd parent ip
  | fuel + 1, ip, path =>
    match skipelem path with
    | none => namexEnd parent ip
    | some (name, rest) => do
      ilock ip
      let s ← get
      if (s.node ip).isDir = false then
        iunlockput ip
        return none
      else if parent ∧ rest = [] then
        iunlock ip
        return some (ip, name)
      else namexNext ip name fun next => namexLoop parent fuel next rest

def isAbsolute (path : Str) : Bool := path.head? == some slash

def namex (cwd : Fin n) (path : Str) (parent : Bool) : M n (Option (Fin n × Str)) := do
  let ip ← if isAbsolute path then iget rootino else idup cwd
  namexLoop parent path.length ip path

def namei (cwd : Fin n) (path : Str) : M n (Option (Fin n)) := do
  return (← namex cwd path false).map Prod.fst

def nameiparent (cwd : Fin n) (path : Str) : M n (Option (Fin n × Str)) := namex cwd path true

namespace Store

variable (v : Store n)

def lookup (i : Fin n) (name : Str) : Option (Fin n) :=
  match v.node i with
  | .dir entries => (findEntry name entries).map Prod.snd
  | _ => none

def walk (parent : Bool) : Fin n → List Str → Except (Stop n) (Option (Fin n × Str))
  | i, [] =>
    if parent then
      if v.locked i then .error (.iputHeld i) else .ok none
    else .ok (some (i, []))
  | i, name :: rest =>
    if v.locked i then .error (.ilockHeld i)
    else if v.node i = .free then .error (.panic "ilock: no type")
    else if (v.node i).isDir = false then .ok none
    else if parent ∧ rest = [] then .ok (some (i, name))
    else
      match v.lookup i name with
      | none => .ok none
      | some j =>
        if (v.addRef i 1).HasSlot j then walk parent j rest else .error (.panic "iget: no inodes")

def start (cwd : Fin n) (path : Str) : Fin n := if isAbsolute path then rootino else cwd

def walkPath (cwd : Fin n) (path : Str) (parent : Bool) : Except (Stop n) (Option (Fin n × Str)) :=
  if isAbsolute path ∧ ¬ v.HasSlot rootino then .error (.panic "iget: no inodes")
  else v.walk parent (start cwd path) (elems path)

def found (r : Option (Fin n × Str)) : Store n :=
  match r with
  | none => v
  | some (j, _) => v.addRef j 1

end Store

variable {i j : Fin n} {s : State n} {v : Store n} {parent : Bool}

theorem lookup_eq_some (h : v.lookup i name = some j) :
    ∃ entries off, v.node i = .dir entries ∧ findEntry name entries = some (off, j) := by
  unfold Store.lookup at h
  split at h
  case h_1 entries hdir =>
    obtain ⟨⟨off, j'⟩, hfind, rfl⟩ := Option.map_eq_some_iff.mp h
    exact ⟨entries, off, hdir, hfind⟩
  case h_2 => cases h

theorem findEntry_eq_none_of_lookup
    (h : v.lookup i name = none) (hdir : v.node i = .dir entries) : findEntry name entries = none := by
  simpa [Store.lookup, hdir] using h

theorem namexEnd_ends (hv : v.Pinned) (hs : Sound s) (hsv : s.toStore = v.addRef i 1) :
    Ends (namexEnd parent i) s ((v.walk parent i []).map fun r => (r, v.found r)) := by
  rw [namexEnd, Store.walk]
  cases parent with
  | false => exact .pure hs hsv
  | true =>
    simp only [if_true]
    cases hl : v.locked i with
    | true => exact (iput_held hsv hl).bind_error
    | false =>
      refine (iput_ends hs hsv hv.addRef_pos hl).bind fun s' hs' hv' => ?_
      rw [hv.drop_addRef] at hv'
      exact .pure hs' hv'

theorem namexNext_ends {name : Str} {entries : List (Dirent n)}
    {loop : Fin n → M n (Option (Fin n × Str))} {w : Fin n → Except (Stop n) (Option (Fin n × Str))}
    (hv : v.Pinned) (hl : v.locked i = false) (hdir : v.node i = .dir entries) (hs : Sound s)
    (hsv : s.toStore = (v.addRef i 1).setLocked i true)
    (hloop : ∀ j s', Sound s' → s'.toStore = v.addRef j 1 →
      Ends (loop j) s' ((w j).map fun r => (r, v.found r))) :
    Ends (namexNext i name loop) s (Except.map (fun r => (r, v.found r)) (match v.lookup i name with
      | none => .ok none
      | some j => if (v.addRef i 1).HasSlot j then w j else .error (.panic "iget: no inodes"))) := by
  cases hlook : v.lookup i name with
  | none =>
    have hfind := findEntry_eq_none_of_lookup hlook hdir
    refine (dirlookup_miss hs hsv hdir hfind).bind fun s₂ hs₂ hv₂ => ?_
    refine (iunlockput_ends hs₂ hv₂ (Store.setLocked_self _ _ _)).bind fun s₃ hs₃ hv₃ => ?_
    rw [unlock_drop hv hl] at hv₃
    exact .pure hs₃ hv₃
  | some j =>
    obtain ⟨entries', off, hdir', hfind⟩ := lookup_eq_some hlook
    simp only
    by_cases hslot : (v.addRef i 1).HasSlot j
    · rw [if_pos hslot]
      refine (dirlookup_hit hs hsv hdir' hfind hslot).bind fun s₂ hs₂ hv₂ => ?_
      have hv₂' : s₂.toStore = ((v.addRef j 1).addRef i 1).setLocked i true := by
        rw [hv₂, Store.setLocked_addRef, Store.addRef_comm]
      refine (iunlockput_ends hs₂ hv₂' (Store.setLocked_self _ _ _)).bind fun s₃ hs₃ hv₃ => ?_
      rw [unlock_drop (hv.addRef j) hl] at hv₃
      exact hloop j s₃ hs₃ hv₃
    · rw [if_neg hslot]
      exact (dirlookup_full hsv hdir' hfind hslot).bind_error

theorem namexLoop_ends (hfuel : path.length ≤ fuel) (hv : v.Pinned)
    (hs : Sound s) (hsv : s.toStore = v.addRef i 1) :
    Ends (namexLoop parent fuel i path) s
      ((v.walk parent i (elems path)).map fun r => (r, v.found r)) := by
  induction fuel generalizing s i path with
  | zero =>
    obtain rfl : path = [] := List.length_eq_zero_iff.mp (Nat.le_zero.mp hfuel)
    exact namexEnd_ends hv hs hsv
  | succ fuel ih =>
    rw [namexLoop, elems_eq]
    cases hskip : skipelem path with
    | none => exact namexEnd_ends hv hs hsv
    | some p =>
      obtain ⟨name, rest⟩ := p
      have hrest : rest.length ≤ fuel :=
        Nat.lt_succ_iff.mp ((length_of_skipelem hskip).trans_le hfuel)
      simp only [Store.walk, elems_rest_eq_nil_iff hskip]
      cases hl : v.locked i with
      | true => exact (ilock_held hsv hv.addRef_pos hl).bind_error
      | false =>
        simp only [Bool.false_eq_true, if_false]
        by_cases hn : v.node i = .free
        · rw [if_pos hn]
          exact (ilock_free hs hsv hv.addRef_pos hl hn).bind_error
        · rw [if_neg hn]
          refine (ilock_ends hs hsv hv.addRef_pos hl hn).bind fun s₁ hs₁ hv₁ => ?_
          apply Does.get
          have hnode : s₁.node = v.node := by
            rw [hv₁]
            rfl
          rw [hnode]
          by_cases hdir : (v.node i).isDir = false
          · rw [if_pos hdir, if_pos hdir]
            refine (iunlockput_ends hs₁ hv₁ (Store.setLocked_self _ _ _)).bind fun s₂ hs₂ hv₂ => ?_
            rw [unlock_drop hv hl] at hv₂
            exact .pure hs₂ hv₂
          · rw [if_neg hdir, if_neg hdir]
            by_cases hlast : parent ∧ rest = []
            · rw [if_pos hlast, if_pos hlast]
              refine (iunlock_ends hs₁ hv₁ (Store.setLocked_self _ _ _)).bind fun s₂ hs₂ hv₂ => ?_
              rw [Store.setLocked_setLocked, Store.setLocked_eq_self (by simpa using hl)] at hv₂
              exact .pure hs₂ hv₂
            · rw [if_neg hlast, if_neg hlast]
              obtain ⟨entries, hentries⟩ := exists_entries (by simpa using hdir)
              exact namexNext_ends hv hl hentries hs₁ hv₁ fun j s' hs' hv' => ih hrest hs' hv'

theorem namex_ends (hs : Sound s) (hsv : s.toStore = v)
    (hcwd : 0 < v.ref cwd) :
    Ends (namex cwd path parent) s ((v.walkPath cwd path parent).map fun r => (r, v.found r)) := by
  have hv : v.Pinned := hsv ▸ hs.toPinned
  unfold namex Store.walkPath Store.start
  cases habs : isAbsolute path with
  | true =>
    by_cases hslot : v.HasSlot rootino
    · simp only [hslot, not_true, and_false, if_false, if_true]
      exact (iget_ends hs hsv hslot).bind fun s' hs' hv' => namexLoop_ends le_rfl hv hs' hv'
    · simp only [hslot, not_false_eq_true, and_true, if_true]
      exact (iget_full hsv hslot).bind_error
  | false =>
    simp only [Bool.false_eq_true, false_and, if_false]
    exact (idup_ends hs hsv hcwd).bind fun s' hs' hv' => namexLoop_ends le_rfl hv hs' hv'

theorem namei_ends (hs : Sound s) (hsv : s.toStore = v)
    (hcwd : 0 < v.ref cwd) :
    Ends (namei cwd path) s
      ((v.walkPath cwd path false).map fun r => (r.map Prod.fst, v.found r)) := by
  have hnamex : Ends (namex cwd path false) s _ := namex_ends hs hsv hcwd
  cases hwalk : v.walkPath cwd path false with
  | error e =>
    rw [hwalk] at hnamex
    exact hnamex.bind_error
  | ok r =>
    rw [hwalk] at hnamex
    exact hnamex.bind fun s' hs' hv' => .pure hs' hv'

end Xv6.Fs
