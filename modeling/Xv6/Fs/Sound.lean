import Xv6.Fs.Inode

namespace Xv6.Fs

open Function Lib Prog

variable {n : Nat} {i j : Fin n} {s : State n} {v : Store n}

structure Sound (s : State n) : Prop where
  ref_nonneg : ∀ i, 0 ≤ s.ref i
  pinned : ∀ i, s.node i ≠ .free → s.nlink i = 0 → 0 < s.ref i ∧ s.valid i
  loaded : ∀ i, 0 < s.ref i → s.valid i → s.node i ≠ .free
  held : ∀ i, s.locked i → 0 < s.ref i ∧ s.valid i
  sized : ∀ i, (s.node i).entries.length ≤ maxDirents

structure SoundAt (s : State n) (i : Fin n) : Prop where
  ref_nonneg : 0 ≤ s.ref i
  pinned : s.node i ≠ .free → s.nlink i = 0 → 0 < s.ref i ∧ s.valid i
  loaded : 0 < s.ref i → s.valid i → s.node i ≠ .free
  held : s.locked i → 0 < s.ref i ∧ s.valid i
  sized : (s.node i).entries.length ≤ maxDirents

abbrev Ends {α : Type} (x : M n α) (s : State n) (r : Except (Stop n) (α × Store n)) : Prop :=
  Does State.toStore Sound x s r

namespace Store

@[simp] theorem addRef_node (v : Store n) (i : Fin n) (k : Int) : (v.addRef i k).node = v.node := rfl

@[simp] theorem addRef_locked (v : Store n) (i : Fin n) (k : Int) :
    (v.addRef i k).locked = v.locked := rfl

theorem addRef_ref_self (v : Store n) (i : Fin n) (k : Int) : (v.addRef i k).ref i = v.ref i + k := by
  simp [addRef]

theorem addRef_ref_of_ne (v : Store n) (k : Int) (h : j ≠ i) :
    (v.addRef i k).ref j = v.ref j := by
  simp [addRef, h]

@[simp] theorem setLocked_node (v : Store n) (i : Fin n) (b : Bool) :
    (v.setLocked i b).node = v.node := rfl

@[simp] theorem setLocked_ref (v : Store n) (i : Fin n) (b : Bool) : (v.setLocked i b).ref = v.ref := rfl

@[simp] theorem setLocked_self (v : Store n) (i : Fin n) (b : Bool) :
    (v.setLocked i b).locked i = b := by
  simp [setLocked]

theorem setLocked_of_ne (v : Store n) (b : Bool) (h : j ≠ i) :
    (v.setLocked i b).locked j = v.locked j := by
  simp [setLocked, h]

theorem setLocked_addRef (v : Store n) (i j : Fin n) (b : Bool) (k : Int) :
    (v.setLocked i b).addRef j k = (v.addRef j k).setLocked i b := rfl

theorem setLocked_setLocked (v : Store n) (i : Fin n) (b b' : Bool) :
    (v.setLocked i b).setLocked i b' = v.setLocked i b' := by
  simp [setLocked]

theorem setLocked_eq_self (h : v.locked i = b) : v.setLocked i b = v := by
  subst h
  simp [setLocked]

theorem addRef_comm (v : Store n) (i j : Fin n) (k l : Int) :
    (v.addRef i k).addRef j l = (v.addRef j l).addRef i k := by
  simp only [addRef, add_right_comm]

theorem addRef_add (v : Store n) (i : Fin n) (k l : Int) :
    (v.addRef i k).addRef i l = v.addRef i (k + l) := by
  simp only [addRef, add_assoc, Pi.single_add]

@[simp] theorem addRef_zero (v : Store n) (i : Fin n) : v.addRef i 0 = v := by
  simp [addRef]

theorem update_ref_one (h : v.ref i = 0) : update v.ref i 1 = (v.addRef i 1).ref := by
  funext j
  by_cases hj : j = i
  · rw [hj, update_self, addRef_ref_self, h, zero_add]
  · rw [update_of_ne hj, addRef_ref_of_ne _ _ hj]

structure Pinned (v : Store n) : Prop where
  ref_nonneg : ∀ i, 0 ≤ v.ref i
  linked : ∀ i, v.node i ≠ .free → v.nlink i = 0 → 0 < v.ref i

theorem Pinned.addRef (h : v.Pinned) (i : Fin n) : (v.addRef i 1).Pinned := by
  have hle : ∀ j, v.ref j ≤ (v.addRef i 1).ref j := by
    intro j
    by_cases hj : j = i
    · rw [hj, addRef_ref_self]
      omega
    · rw [addRef_ref_of_ne _ _ hj]
  exact ⟨fun j => (h.ref_nonneg j).trans (hle j),
    fun j hn hl => (h.linked j hn hl).trans_le (hle j)⟩

theorem Pinned.addRef_pos (h : v.Pinned) : 0 < (v.addRef i 1).ref i := by
  rw [addRef_ref_self]
  exact Int.lt_add_one_iff.mpr (h.ref_nonneg i)

theorem Pinned.setLocked (h : v.Pinned) (i : Fin n) (b : Bool) : (v.setLocked i b).Pinned :=
  ⟨h.ref_nonneg, h.linked⟩

def drop (v : Store n) (i : Fin n) : Store n :=
  if v.node i ≠ .free ∧ v.nlink i = 0 ∧ v.ref i = 1 then
    { (v.setNode i .free).addRef i (-1) with freeBlocks := v.freeBlocks + (v.node i).blocks }
  else v.addRef i (-1)

theorem Pinned.drop_addRef (h : v.Pinned) (i : Fin n) : (v.addRef i 1).drop i = v := by
  have hkeep : ¬ ((v.addRef i 1).node i ≠ .free ∧ (v.addRef i 1).nlink i = 0 ∧
      (v.addRef i 1).ref i = 1) := by
    rintro ⟨hn, hl, href⟩
    have hpos := h.linked i hn hl
    rw [addRef_ref_self] at href
    omega
  rw [drop, if_neg hkeep, addRef_add, add_neg_cancel, addRef_zero]

theorem drop_ref (v : Store n) (i : Fin n) : (v.drop i).ref = v.ref + Pi.single i (-1) := by
  unfold drop
  split <;> rfl

theorem drop_locked (v : Store n) (i : Fin n) : (v.drop i).locked = v.locked := by
  unfold drop
  split <;> rfl

end Store

theorem Sound.toPinned (h : Sound s) : s.toStore.Pinned :=
  ⟨h.ref_nonneg, fun i hn hl => (h.pinned i hn hl).1⟩

theorem panics_ends (msg : String) : Ends (panics msg : M n α) s (.error (.panic msg)) :=
  .error rfl

theorem exists_entries (h : (v.node i).isDir) : ∃ entries, v.node i = .dir entries := by
  cases hnode : v.node i with
  | dir entries => exact ⟨entries, rfl⟩
  | free | file _ | dev _ _ => simp [hnode, Node.isDir] at h

theorem unlock_drop {w : Store n} (hw : w.Pinned) (hfree : w.locked i = false) :
    (((w.addRef i 1).setLocked i true).setLocked i false).drop i = w := by
  rw [Store.setLocked_setLocked, Store.setLocked_eq_self (by simpa using hfree), hw.drop_addRef]

theorem SoundAt.of_loaded (hpos : 0 < s.ref i) (hvalid : s.valid i) (hn : s.node i ≠ .free)
    (hsize : (s.node i).entries.length ≤ maxDirents) : SoundAt s i :=
  ⟨hpos.le, fun _ _ => ⟨hpos, hvalid⟩, fun _ _ => hn, fun _ => ⟨hpos, hvalid⟩, hsize⟩

theorem Sound.of_agree (hs : Sound s)
    (hagree : ∀ j, j ≠ i → t.node j = s.node j ∧ t.nlink j = s.nlink j ∧ t.ref j = s.ref j ∧
      t.locked j = s.locked j ∧ t.valid j = s.valid j) (hi : SoundAt t i) : Sound t := by
  have hat : ∀ j, SoundAt t j := by
    intro j
    by_cases hj : j = i
    · rwa [hj]
    · obtain ⟨hnode, hnlink, href, hlocked, hvalid⟩ := hagree j hj
      refine ⟨?_, ?_, ?_, ?_, ?_⟩
      · exact href ▸ hs.ref_nonneg j
      · simpa only [hnode, hnlink, href, hvalid] using hs.pinned j
      · simpa only [hnode, href, hvalid] using hs.loaded j
      · simpa only [hlocked, href, hvalid] using hs.held j
      · exact hnode ▸ hs.sized j
  exact ⟨fun j => (hat j).ref_nonneg, fun j => (hat j).pinned, fun j => (hat j).loaded,
    fun j => (hat j).held, fun j => (hat j).sized⟩

section Operations

variable (hs : Sound s) (hv : s.toStore = v)

include hs in
theorem Sound.addRef (h : 0 < s.ref i) : Sound { s with toStore := s.addRef i 1 } := by
  have hpos : 0 < (s.addRef i 1).ref i := hs.toPinned.addRef_pos
  refine hs.of_agree (fun j hj => ⟨rfl, rfl, Store.addRef_ref_of_ne _ _ hj, rfl, rfl⟩) ?_
  exact {
    ref_nonneg := hpos.le
    pinned hn hl := ⟨hpos, (hs.pinned i hn hl).2⟩
    loaded _ hvalid := hs.loaded i h hvalid
    held hl := ⟨hpos, (hs.held i hl).2⟩
    sized := hs.sized i }

include hs in
theorem Sound.recycle (h : s.ref i = 0) :
    Sound { s with toStore := s.addRef i 1, valid := update s.valid i false } := by
  refine hs.of_agree (i := i) (fun j hj => ⟨rfl, rfl, Store.addRef_ref_of_ne _ _ hj, rfl,
    update_of_ne hj _ _⟩) ?_
  exact {
    ref_nonneg := hs.toPinned.addRef_pos.le
    pinned hn hl := absurd h (hs.pinned i hn hl).1.ne.symm
    loaded _ hvalid := absurd hvalid (by simp)
    held hl := absurd h (hs.held i hl).1.ne.symm
    sized := hs.sized i }

include hs hv in
theorem iget_ends (h : v.HasSlot i) : Ends (iget i) s (.ok (i, v.addRef i 1)) := by
  subst hv
  apply Does.get
  by_cases hpos : 0 < s.ref i
  · rw [if_pos hpos]
    exact .ok rfl (hs.addRef hpos) rfl
  · have hslot : s.cached < ninode := h.resolve_left hpos
    have hzero : s.ref i = 0 := le_antisymm (not_lt.mp hpos) (hs.ref_nonneg i)
    rw [if_neg hpos, if_pos hslot, Store.update_ref_one hzero]
    exact .ok rfl (hs.recycle hzero) rfl

include hv in
theorem iget_full (h : ¬ v.HasSlot i) : Ends (iget i) s (.error (.panic "iget: no inodes")) := by
  subst hv
  apply Does.get
  rw [Store.HasSlot, not_or] at h
  rw [if_neg h.1, if_neg h.2]
  exact .error rfl

include hs hv in
theorem idup_ends (h : 0 < v.ref i) : Ends (idup i) s (.ok (i, v.addRef i 1)) := by
  subst hv
  exact .ok rfl (hs.addRef h) rfl

include hs hv in
theorem ilock_ends (hpos : 0 < v.ref i) (hfree : v.locked i = false) (hn : v.node i ≠ .free) :
    Ends (ilock i) s (.ok ((), v.setLocked i true)) := by
  subst hv
  apply Does.get
  rw [if_neg (by omega), if_neg (by simp [hfree]), if_neg fun h => hn h.2]
  refine .ok rfl (hs.of_agree (i := i) (fun j hj => ?_) ?_) rfl
  · exact ⟨rfl, rfl, rfl, Store.setLocked_of_ne _ _ hj, update_of_ne hj _ _⟩
  · exact .of_loaded hpos (update_self _ _ _) hn (hs.sized i)

include hv in
theorem ilock_held (hpos : 0 < v.ref i) (h : v.locked i) :
    Ends (ilock i) s (.error (.ilockHeld i)) := by
  subst hv
  apply Does.get
  rw [if_neg (by omega), if_pos h]
  exact .error rfl

include hs hv in
theorem ilock_free (hpos : 0 < v.ref i) (hfree : v.locked i = false) (hn : v.node i = .free) :
    Ends (ilock i) s (.error (.panic "ilock: no type")) := by
  subst hv
  have hinvalid : s.valid i = false := by
    cases hvalid : s.valid i with
    | false => rfl
    | true => exact absurd hn (hs.loaded i hpos hvalid)
  apply Does.get
  rw [if_neg (by omega), if_neg (by simp [hfree]), if_pos ⟨hinvalid, hn⟩]
  exact .error rfl

include hs hv in
theorem iunlock_ends (h : v.locked i) : Ends (iunlock i) s (.ok ((), v.setLocked i false)) := by
  subst hv
  have hpos := (hs.held i h).1
  apply Does.get
  rw [if_neg (by simp [h]; omega)]
  refine .ok rfl (hs.of_agree (i := i) (fun j hj => ?_) ?_) rfl
  · exact ⟨rfl, rfl, rfl, Store.setLocked_of_ne _ _ hj, rfl⟩
  · exact ⟨hs.ref_nonneg i, hs.pinned i, hs.loaded i, fun hl => absurd hl (by simp), hs.sized i⟩

include hs hv in
theorem iput_ends (hpos : 0 < v.ref i) (hfree : v.locked i = false) :
    Ends (iput i) s (.ok ((), v.drop i)) := by
  subst hv
  apply Does.get
  rw [if_neg (by simp [hfree])]
  by_cases hlast : s.node i ≠ .free ∧ s.nlink i = 0 ∧ s.ref i = 1
  · obtain ⟨hn, hl, href⟩ := hlast
    rw [if_pos ⟨(hs.pinned i hn hl).2, hl, href⟩]
    refine .ok rfl (hs.of_agree (i := i) (fun j hj => ?_) ?_) ?_
    · exact ⟨update_of_ne hj _ _, rfl, Store.addRef_ref_of_ne _ _ hj, rfl,
        update_of_ne hj _ _⟩
    · have hnode : (s.setNode i .free).node i = .free := update_self _ _ _
      exact {
        ref_nonneg := by simp [Store.addRef_ref_self, Store.setNode, href]
        pinned hne _ := absurd hnode hne
        loaded _ hvalid := absurd hvalid (by simp)
        held hheld := absurd hheld (by simp [Store.setNode, hfree])
        sized := by simp [Store.setNode, Node.entries] }
    · rw [Store.drop, if_pos ⟨hn, hl, href⟩]
  · have hkeep : ¬ (s.valid i ∧ s.nlink i = 0 ∧ s.ref i = 1) := fun h =>
      hlast ⟨hs.loaded i hpos h.1, h.2⟩
    have href : (s.addRef i (-1)).ref i = s.ref i - 1 := Store.addRef_ref_self _ _ _
    rw [if_neg hkeep]
    refine .ok rfl (hs.of_agree (i := i) (fun j hj => ?_) ?_) ?_
    · exact ⟨rfl, rfl, Store.addRef_ref_of_ne _ _ hj, rfl, rfl⟩
    · exact {
        ref_nonneg := by
          simp only [href]
          omega
        pinned hn hl := by
          have hne : s.ref i ≠ 1 := fun h => hlast ⟨hn, hl, h⟩
          simp only [href]
          exact ⟨by omega, (hs.pinned i hn hl).2⟩
        loaded _ hvalid := hs.loaded i hpos hvalid
        held hheld := absurd hheld (by simp [hfree])
        sized := hs.sized i }
    · rw [Store.drop, if_neg hlast]

include hv in
theorem iput_held (h : v.locked i) : Ends (iput i) s (.error (.iputHeld i)) := by
  subst hv
  apply Does.get
  rw [if_pos h]
  exact .error rfl

include hs hv in
theorem iunlockput_ends (h : v.locked i) :
    Ends (iunlockput i) s (.ok ((), (v.setLocked i false).drop i)) := by
  have hpos : 0 < v.ref i := by
    rw [← hv] at h ⊢
    exact (hs.held i h).1
  exact (iunlock_ends hs hv h).bind fun s' hs' hv' => iput_ends hs' hv' hpos (v.setLocked_self i false)

variable [NeZero n] {dp : Fin n} {name : Str} {entries : List (Dirent n)}

include hs hv in
theorem dirlookup_hit (hdir : v.node dp = .dir entries)
    (hfind : findEntry name entries = some (off, j)) (hslot : v.HasSlot j) :
    Ends (dirlookup dp name) s (.ok (some (off, j), v.addRef j 1)) := by
  have hnode : s.node dp = .dir entries := hv ▸ hdir
  apply Does.get
  simp only [hnode, hfind]
  exact (iget_ends hs hv hslot).bind fun s' hs' hv' => .pure hs' hv'

include hv in
theorem dirlookup_full (hdir : v.node dp = .dir entries)
    (hfind : findEntry name entries = some (off, j)) (hslot : ¬ v.HasSlot j) :
    Ends (dirlookup dp name) s (.error (.panic "iget: no inodes")) := by
  have hnode : s.node dp = .dir entries := hv ▸ hdir
  apply Does.get
  simp only [hnode, hfind]
  exact (iget_full hv hslot).bind_error

include hs hv in
theorem dirlookup_miss (hdir : v.node dp = .dir entries) (hfind : findEntry name entries = none) :
    Ends (dirlookup dp name) s (.ok (none, v)) := by
  have hnode : s.node dp = .dir entries := hv ▸ hdir
  apply Does.get
  simp only [hnode, hfind]
  exact .pure hs hv

include hv in
theorem dirlookup_not_dir (hdir : (v.node dp).isDir = false) :
    Ends (dirlookup dp name) s (.error (.panic "dirlookup not DIR")) := by
  subst hv
  apply Does.get
  cases hnode : s.node dp with
  | dir entries => simp [hnode, Node.isDir] at hdir
  | free | file _ | dev _ _ => exact panics_ends _

end Operations

end Xv6.Fs
