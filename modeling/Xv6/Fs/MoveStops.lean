import Xv6.Fs.Move

namespace Xv6.Fs

open Lib Prog

variable {n : Nat} [NeZero n] {s : State n} {v : Store n} {cwd S D : Fin n} {src dest : Str}
  {entries : List (Dirent n)} {r : Outcome n}

section Conditions

variable (v : Store n) (cwd : Fin n) (src dest : Str)

structure CanLink (entries : List (Dirent n)) : Prop where
  fresh : findEntry (safestrcpy src dirsiz) entries = none
  room : freeEntry entries < maxDirents
  blocks : newBlocks entries (freeEntry entries) ≤ v.freeBlocks

def LinkSafe (S D : Fin n) (entries : List (Dirent n)) : Prop :=
  (∀ off x, findEntry (safestrcpy src dirsiz) entries = some (off, x) → ((v.take S).take D).HasSlot x) ∧
    (findEntry (safestrcpy src dirsiz) entries = none → CanLink v src entries ∧
      (v.linkedHeld src S D entries).ClearPath cwd src true)

def DestSafe (S : Fin n) : Prop :=
  (v.take S).ClearPath cwd dest false ∧ ∀ D, (v.take S).ReachesPath cwd dest D → D ≠ S →
    ∃ entries, v.node D = .dir entries ∧ LinkSafe v cwd src S D entries

/-- Both paths are clear, `src` leads to an allocated inode and `dest` to a directory. -/
def MoveSafe : Prop :=
  v.ClearPath cwd src false ∧ ∀ S, v.ReachesPath cwd src S →
    v.node S ≠ .free ∧ DestSafe v cwd src dest S

/-- `dest` does not lead past `S` or to it, and if the new entry is made then `src` passes
neither `S` nor the directory it is made in. -/
def DestApart (S : Fin n) : Prop :=
  S ∉ (v.take S).visitsPath cwd dest ∧ ((v.take S).ClearPath cwd dest false →
    ∀ D, (v.take S).ReachesPath cwd dest D → D ≠ S ∧
      ∀ entries, v.node D = .dir entries → CanLink v src entries →
        ∀ x ∈ (v.linkedHeld src S D entries).visitsPath cwd src,
          x ≠ S ∧ x ≠ D)

def MoveApart : Prop :=
  v.ClearPath cwd src false → ∀ S, v.ReachesPath cwd src S → v.node S ≠ .free →
    DestApart v cwd src dest S

end Conditions

section Walks

variable {path : Str} {i j : Fin n}

theorem clearPath_of_ok {parent : Bool} {r : Option (Fin n × Str)}
    (h : v.walkPath cwd path parent = .ok r) : v.ClearPath cwd path parent := by
  by_contra hclear
  obtain ⟨msg, hmsg⟩ := walkPath_panic_iff.mpr hclear
  rw [h] at hmsg
  cases hmsg

theorem reachesPath_iff_of_found (h : v.walkPath cwd path false = .ok (some (j, m))) :
    v.ReachesPath cwd path i ↔ i = j := by
  constructor
  · intro hi
    exact Option.some.inj (hi.1.symm.trans (walkPath_reaches h).1)
  · rintro rfl
    exact walkPath_reaches h

theorem not_reachesPath_of_missing (h : v.walkPath cwd path false = .ok none) :
    ¬ v.ReachesPath cwd path j := by
  intro hj
  rw [walkPath_of_reaches (clearPath_of_ok h) hj] at h
  cases h

theorem not_reachesPath_of_stop (h : v.walkPath cwd path false = .error e)
    (hclear : v.ClearPath cwd path false) : ¬ v.ReachesPath cwd path j := by
  intro hj
  rw [walkPath_of_reaches hclear hj] at h
  cases h

end Walks

omit [NeZero n] in
theorem ne_dir_of_isDir_eq_false (h : (v.node D).isDir = false) (es : List (Dirent n)) :
    v.node D ≠ .dir es := by
  intro hdir
  simp [hdir, Node.isDir] at h

section Panics

theorem MovesInto.panic_iff (h : MovesInto v cwd src S D entries r) :
    (∃ msg, r = .error (.panic msg)) ↔ ¬ LinkSafe v cwd src S D entries := by
  have hit {off x} (hfind : findEntry (safestrcpy src dirsiz) entries = some (off, x)) :
      LinkSafe v cwd src S D entries ↔ ((v.take S).take D).HasSlot x := by
    simp [LinkSafe, hfind]
  have hmiss (hfind : findEntry (safestrcpy src dirsiz) entries = none) :
      LinkSafe v cwd src S D entries ↔
        CanLink v src entries ∧ (v.linkedHeld src S D entries).ClearPath cwd src true := by
    simp [LinkSafe, hfind]
  cases h with
  | present hfind hslot _ _ => simp [hit hfind, hslot]
  | presentHeld hfind hslot _ => simp [hit hfind, hslot]
  | presentFull hfind hslot => simp [hit hfind, hslot]
  | long hfind hmax =>
    rw [hmiss hfind]
    exact ⟨fun _ h => absurd h.1.room (by omega), fun _ => ⟨_, rfl⟩⟩
  | noBlock hfind hmax hblocks =>
    rw [hmiss hfind]
    exact ⟨fun _ h => absurd h.1.blocks (by omega), fun _ => ⟨_, rfl⟩⟩
  | parentStop hfind hmax hblocks hwalk =>
    rw [hmiss hfind, and_iff_right ⟨hfind, hmax, hblocks⟩, ← walkPath_panic_iff, hwalk]
    simp
  | moved hfind hmax hblocks hwalk _ _ _ _ =>
    rw [hmiss hfind, and_iff_right ⟨hfind, hmax, hblocks⟩, ← walkPath_panic_iff, hwalk]
    simp

theorem MovesFrom.panic_iff (h : MovesFrom v cwd src dest S r) :
    (∃ msg, r = .error (.panic msg)) ↔ ¬ DestSafe v cwd src dest S := by
  have hfound {D m} (hwalk : (v.take S).walkPath cwd dest false = .ok (some (D, m))) (hDS : D ≠ S) :
      DestSafe v cwd src dest S ↔
        ∃ entries, v.node D = .dir entries ∧ LinkSafe v cwd src S D entries := by
    simp [DestSafe, clearPath_of_ok hwalk, reachesPath_iff_of_found hwalk, hDS]
  cases h with
  | destStop hwalk =>
    rw [DestSafe, and_iff_left_of_imp, ← walkPath_panic_iff, hwalk]
    · simp
    · intro hclear D hD
      exact absurd hD (not_reachesPath_of_stop hwalk hclear)
  | destMissing hwalk =>
    simp [DestSafe, clearPath_of_ok hwalk, not_reachesPath_of_missing hwalk]
  | destSame hwalk =>
    simp [DestSafe, clearPath_of_ok hwalk, reachesPath_iff_of_found hwalk]
  | destFree hwalk hDS hn => simp [hfound hwalk hDS, hn]
  | destNotDir hwalk hDS hn hdir => simp [hfound hwalk hDS, ne_dir_of_isDir_eq_false hdir]
  | into hwalk hDS hdir hinto => simp [hfound hwalk hDS, hdir, hinto.panic_iff]

theorem Moves.panic_iff (h : Moves v cwd src dest r) :
    (∃ msg, r = .error (.panic msg)) ↔ ¬ MoveSafe v cwd src dest := by
  cases h with
  | srcStop hwalk =>
    rw [MoveSafe, and_iff_left_of_imp, ← walkPath_panic_iff, hwalk]
    · simp
    · intro hclear S hS
      exact absurd hS (not_reachesPath_of_stop hwalk hclear)
  | srcMissing hwalk => simp [MoveSafe, clearPath_of_ok hwalk, not_reachesPath_of_missing hwalk]
  | srcFree hwalk hn => simp [MoveSafe, clearPath_of_ok hwalk, reachesPath_iff_of_found hwalk, hn]
  | go hwalk hn hfrom =>
    simp [MoveSafe, clearPath_of_ok hwalk, reachesPath_iff_of_found hwalk, hn, hfrom.panic_iff]

theorem MovesInto.unchanged (h : MovesInto v cwd src S D entries (.ok (-1, v'))) :
    v' = v := by
  cases h
  rfl

theorem Moves.unchanged (h : Moves v cwd src dest (.ok (-1, v'))) : v' = v := by
  cases h with
  | srcMissing => rfl
  | go _ _ hfrom =>
    cases hfrom with
    | destMissing => rfl
    | into _ _ _ hinto => exact hinto.unchanged

structure AllOrNothing (x : M n Int) (s : State n) : Prop where
  no_panic : ∀ msg, x s ≠ .error (.panic msg)
  unchanged : ∀ s', x s = .ok (-1, s') → s'.toStore = s.toStore

theorem sysMoveFile_allOrNothing_iff (hs : Sound s) (hfree : ∀ i, s.locked i = false)
    (hcwd : 0 < s.ref cwd) :
    AllOrNothing (sysMoveFile cwd src dest) s ↔ MoveSafe s.toStore cwd src dest := by
  obtain ⟨r, hmoves, hends⟩ := sysMoveFile_ends src dest hs hfree hcwd
  rw [← not_iff_not, ← hmoves.panic_iff]
  constructor
  · intro hnot
    by_contra hpanic
    refine hnot ⟨fun msg hmsg => hpanic ⟨msg, hends.eq_error hmsg⟩, fun s' hs' => ?_⟩
    obtain ⟨rfl, -⟩ := hends.eq_ok hs'
    exact hmoves.unchanged
  · rintro ⟨msg, rfl⟩ h
    cases hends with
    | error hx => exact h.no_panic msg hx

theorem sysMoveFile_allOrNothing_iff_plain : MoveSafe sample.toStore 1 [102] [100] := by
  have hret : (sysMoveFile 1 [102] [100] sample).map Prod.fst = .ok 0 := by decide +kernel
  refine (sysMoveFile_allOrNothing_iff sample_sound (fun _ => rfl) (by decide)).mp ⟨?_, ?_⟩
  · intro msg hmsg
    simp [hmsg, Except.map] at hret
  · intro s' hs'
    simp [hs', Except.map] at hret

theorem sysMoveFile_panics_on_file : ¬ AllOrNothing (sysMoveFile 1 [102] [100, 47, 103]) sample := by
  intro h
  exact h.no_panic "dirlookup not DIR" (eq_error_of_map (g := Prod.fst) (by decide +kernel))

end Panics

section Locks

variable (hfree : ∀ i, v.locked i = false)

include hfree in
theorem MovesInto.held_iff (h : MovesInto v cwd src S D entries r) :
    (∃ x, r = .error (.ilockHeld x)) ↔ CanLink v src entries ∧
      ∃ x ∈ (v.linkedHeld src S D entries).visitsPath cwd src,
        x = S ∨ x = D := by
  have hlocked : ∀ x, (v.linkedHeld src S D entries).locked x ↔ x = S ∨ x = D := by
    intro x
    rw [← Bool.not_eq_false, linkedHeld_locked hfree, not_and_or, not_not, not_not]
  have hhit {off x} (hfind : findEntry (safestrcpy src dirsiz) entries = some (off, x)) :
      ¬ CanLink v src entries := fun hlink => by simp [hlink.fresh] at hfind
  cases h with
  | present hfind _ _ _ => simp [hhit hfind]
  | presentHeld hfind _ _ => simp [hhit hfind]
  | presentFull hfind _ => simp [hhit hfind]
  | long hfind hmax =>
    have hlink : ¬ CanLink v src entries := fun hlink => absurd hlink.room (by omega)
    simp [hlink]
  | noBlock hfind hmax hblocks =>
    have hlink : ¬ CanLink v src entries := fun hlink => absurd hlink.blocks (by omega)
    simp [hlink]
  | parentStop hfind hmax hblocks hwalk =>
    simp only [← hlocked]
    rw [and_iff_right ⟨hfind, hmax, hblocks⟩, ← walkPath_ilockHeld_iff, hwalk]
    simp
  | moved hfind hmax hblocks hwalk _ _ _ _ =>
    simp only [← hlocked]
    rw [and_iff_right ⟨hfind, hmax, hblocks⟩, ← walkPath_ilockHeld_iff, hwalk]
    simp

include hfree in
theorem take_held_iff : (∃ x, (v.take S).walkPath cwd dest false = .error (.ilockHeld x)) ↔
    S ∈ (v.take S).visitsPath cwd dest := by
  rw [walkPath_ilockHeld_iff]
  constructor
  · rintro ⟨x, hx, hl⟩
    by_cases hxS : x = S
    · subst hxS
      exact hx
    · rw [Store.take_locked_of_ne hxS, hfree] at hl
      cases hl
  · intro hS
    exact ⟨S, hS, Store.take_locked_self⟩

include hfree in
theorem not_visits_of_ok
    (hwalk : (v.take S).walkPath cwd dest false = .ok found) : S ∉ (v.take S).visitsPath cwd dest := by
  rw [← take_held_iff hfree, hwalk]
  simp

include hfree in
theorem MovesFrom.held_iff (h : MovesFrom v cwd src dest S r) :
    (∃ x, r = .error (.ilockHeld x)) ↔ ¬ DestApart v cwd src dest S := by
  have hfound {D m} (hwalk : (v.take S).walkPath cwd dest false = .ok (some (D, m))) (hDS : D ≠ S) :
      ¬ DestApart v cwd src dest S ↔ ∃ entries, v.node D = .dir entries ∧ CanLink v src entries ∧
        ∃ x ∈ (v.linkedHeld src S D entries).visitsPath cwd src,
          x = S ∨ x = D := by
    simp only [DestApart, not_visits_of_ok hfree hwalk, not_false_eq_true, true_and,
      clearPath_of_ok hwalk, forall_const, reachesPath_iff_of_found hwalk, forall_eq, hDS, ne_eq,
      not_forall, not_and_or, not_not, exists_prop]
  cases h with
  | destStop hwalk =>
    rw [DestApart, and_iff_left, not_not, ← take_held_iff hfree, hwalk]
    · simp
    · intro hclear D hD
      exact absurd hD (not_reachesPath_of_stop hwalk hclear)
  | destMissing hwalk =>
    simp [DestApart, not_visits_of_ok hfree hwalk, not_reachesPath_of_missing hwalk]
  | destSame hwalk => simp [DestApart, clearPath_of_ok hwalk, reachesPath_iff_of_found hwalk]
  | destFree hwalk hDS hn => simp [hfound hwalk hDS, hn]
  | destNotDir hwalk hDS hn hdir => simp [hfound hwalk hDS, ne_dir_of_isDir_eq_false hdir]
  | into hwalk hDS hdir hinto =>
    rw [hfound hwalk hDS, hinto.held_iff hfree]
    simp [hdir]

include hfree in
theorem Moves.held_iff (h : Moves v cwd src dest r) :
    (∃ x, r = .error (.ilockHeld x)) ↔ ¬ MoveApart v cwd src dest := by
  have hnone : ¬ ∃ x, v.walkPath cwd src false = .error (.ilockHeld x) := by
    rw [walkPath_ilockHeld_iff]
    simp [hfree]
  cases h with
  | srcStop hwalk =>
    rw [hwalk] at hnone
    have hapart : MoveApart v cwd src dest := fun hclear S hS =>
      absurd hS (not_reachesPath_of_stop hwalk hclear)
    simpa [hapart] using hnone
  | srcMissing hwalk => simp [MoveApart, not_reachesPath_of_missing hwalk]
  | srcFree hwalk hn => simp [MoveApart, reachesPath_iff_of_found hwalk, hn]
  | go hwalk hn hfrom =>
    rw [hfrom.held_iff hfree]
    simp [MoveApart, clearPath_of_ok hwalk, reachesPath_iff_of_found hwalk, hn]

end Locks

theorem sysMoveFile_no_self_deadlock_iff (hs : Sound s) (hfree : ∀ i, s.locked i = false)
    (hcwd : 0 < s.ref cwd) :
    (∀ i, sysMoveFile cwd src dest s ≠ .error (.ilockHeld i)) ↔ MoveApart s.toStore cwd src dest := by
  obtain ⟨r, hmoves, hends⟩ := sysMoveFile_ends src dest hs hfree hcwd
  rw [← not_iff_not, ← hmoves.held_iff hfree, not_forall]
  constructor
  · rintro ⟨i, hi⟩
    exact ⟨i, hends.eq_error (not_not.mp hi)⟩
  · rintro ⟨i, rfl⟩
    cases hends with
    | error hx => exact ⟨i, fun h => h hx⟩

theorem sysMoveFile_no_self_deadlock_iff_plain : MoveApart sample.toStore 1 [102] [100] := by
  have hret : (sysMoveFile 1 [102] [100] sample).map Prod.fst = .ok 0 := by decide +kernel
  refine (sysMoveFile_no_self_deadlock_iff sample_sound (fun _ => rfl) (by decide)).mp fun i hi => ?_
  simp [hi, Except.map] at hret

theorem sysMoveFile_waits_for_itself :
    sysMoveFile 1 [100, 47, 103] [47] sample = .error (.ilockHeld 1) :=
  eq_error_of_map (g := Prod.fst) (by decide +kernel)

end Xv6.Fs
